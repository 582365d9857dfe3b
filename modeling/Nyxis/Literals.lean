import Mathlib.Data.List.TakeWhile
import Nyxis.Lexer

/-!
# Literals — reading back printed literals

An integer is printed as `=` and its decimal text, a string in quotes with the escapes of its characters.  The lexer
reads all of them back but the least integer, and takes a sign for a digit of an escape.

* `tokenizeLoop_fuel`, `tokenize_cons`: the loop of the lexer does not depend on its bound.
* `lex_literals`: which literals are read back, and which ill-formed ones are rejected.
-/

namespace Nyxis

open Lib Lib.Outcome

/-! ## The loop -/

theorem length_dropWhile_le {α : Type} (p : α → Bool) (l : List α) : (l.dropWhile p).length ≤ l.length :=
  (List.dropWhile_suffix p).length_le

theorem minusSign_le (l : List Char) : (minusSign l).2.length ≤ l.length := by
  unfold minusSign
  split
  · exact Nat.le_succ _
  · exact Nat.le_refl _

theorem readCode_le {letter : Char} {n : ℕ} {l : List Char} {c : Char} {rest : List Char}
    (h : readCode letter n l = .ok (c, rest)) : rest.length ≤ l.length := by
  obtain ⟨_, -, h⟩ := bind_eq_ok.mp h
  obtain ⟨_, -, h⟩ := bind_eq_ok.mp h
  cases h
  rw [List.length_drop]
  omega

theorem readEscape_le {l : List Char} {c : Char} {rest : List Char} (h : readEscape l = .ok (c, rest)) :
    rest.length ≤ l.length := by
  unfold readEscape at h
  split at h
  any_goals
    first
      | cases h; done
      | cases h; exact Nat.le_succ _
  · exact Nat.le_succ_of_le (readCode_le h)
  · exact Nat.le_succ_of_le (readCode_le h)

theorem readString_le : ∀ {fuel : ℕ} {acc l s rest : List Char}, readString fuel acc l = .ok (s, rest) → rest.length ≤ l.length
  | 0, _, _, _, _, h => by cases h
  | _ + 1, _, [], _, _, h => by cases h
  | fuel + 1, acc, c :: l, s, rest, h => by
    unfold readString at h
    split at h
    · cases h
      exact Nat.le_succ _
    · split at h
      · obtain ⟨⟨c', l'⟩, he, h⟩ := bind_eq_ok.mp h
        exact (readString_le h).trans ((readEscape_le he).trans (Nat.le_succ _))
      · exact (readString_le h).trans (Nat.le_succ _)

theorem readHex_le : ∀ {l acc hex rest : List Char}, readHex acc l = .ok (hex, rest) → rest.length ≤ l.length
  | [], _, _, _, h => by cases h
  | c :: l, acc, hex, rest, h => by
    unfold readHex at h
    split at h
    · cases h
      exact Nat.le_succ _
    · split at h
      · exact (readHex_le h).trans (Nat.le_succ _)
      · split at h
        · exact (readHex_le h).trans (Nat.le_succ _)
        · cases h

theorem skipBlank_le : ∀ (inside : Bool) (l : List Char), (skipBlank inside l).length ≤ l.length
  | inside, [] => by cases inside <;> exact Nat.le_refl 0
  | true, c :: l => by
    unfold skipBlank
    split <;> exact (skipBlank_le _ l).trans (Nat.le_succ _)
  | false, c :: l => by
    unfold skipBlank
    split
    · exact (skipBlank_le _ l).trans (Nat.le_succ _)
    · split
      · exact (skipBlank_le _ l).trans (Nat.le_succ _)
      · exact Nat.le_refl _

section

variable (u : CharClasses)

/-- A token takes nothing back. -/
theorem readToken_le {c : Char} {l : List Char} {t : Token} {rest : List Char} (h : readToken u c l = .ok (t, rest)) :
    rest.length ≤ l.length := by
  have hnum : ∀ p, ((minusSign l).2.dropWhile p).length ≤ l.length := fun p =>
    (length_dropWhile_le p _).trans (minusSign_le l)
  unfold readToken at h
  split at h
  any_goals
    cases h
    exact Nat.le_refl _
  · obtain ⟨_, -, h⟩ := bind_eq_ok.mp h
    cases h
    exact hnum _
  · obtain ⟨_, -, h⟩ := bind_eq_ok.mp h
    cases h
    exact hnum _
  · unfold readBool at h
    dsimp only at h
    split at h
    · cases h
      exact length_dropWhile_le _ _
    · split at h
      · cases h
        exact length_dropWhile_le _ _
      · cases h
  · cases h
    exact length_dropWhile_le _ _
  · obtain ⟨⟨s, l'⟩, hs, h⟩ := bind_eq_ok.mp h
    cases h
    exact readString_le hs
  · unfold readAt at h
    split at h
    · obtain ⟨_, -, h⟩ := bind_eq_ok.mp h
      cases h
      exact length_dropWhile_le _ _
    · cases h
      exact length_dropWhile_le _ _
  · obtain ⟨⟨hex, l'⟩, hhex, h⟩ := bind_eq_ok.mp h
    obtain ⟨_, -, h⟩ := bind_eq_ok.mp h
    cases h
    exact readHex_le hhex
  · obtain ⟨_, -, h⟩ := bind_eq_ok.mp h
    cases h
    exact hnum _
  · cases h
    exact length_dropWhile_le _ _
  · split at h
    · cases h
      exact length_dropWhile_le _ _
    · cases h

/-- Tokens that have been read stay in front. -/
theorem tokenizeLoop_acc : ∀ (fuel : ℕ) (acc : List Token) (l : List Char),
    tokenizeLoop u fuel acc l = (acc ++ ·) <$> tokenizeLoop u fuel [] l
  | 0, _, _ => rfl
  | fuel + 1, acc, l => by
    rw [tokenizeLoop, tokenizeLoop]
    cases skipBlank false l with
    | nil => rfl
    | cons c rest =>
      dsimp only
      cases readToken u c rest with
      | ok t =>
        rw [ok_bind, ok_bind]
        rw [tokenizeLoop_acc fuel (acc ++ [t.1]), tokenizeLoop_acc fuel ([] ++ [t.1])]
        cases tokenizeLoop u fuel [] t.2 with
        | ok ts =>
          rw [map_ok, map_ok, map_ok]
          simp
        | err e => rfl
        | panic => rfl
      | err e => rfl
      | panic => rfl

/-- The bound on the number of tokens is high enough. -/
theorem tokenizeLoop_fuel : ∀ {fuel fuel' : ℕ} {l : List Char}, l.length < fuel → l.length < fuel' →
    ∀ acc, tokenizeLoop u fuel acc l = tokenizeLoop u fuel' acc l
  | 0, _, _, h, _, _ => absurd h (Nat.not_lt_zero _)
  | _, 0, _, _, h, _ => absurd h (Nat.not_lt_zero _)
  | fuel + 1, fuel' + 1, l, h, h', acc => by
    rw [tokenizeLoop, tokenizeLoop]
    have hblank := skipBlank_le false l
    cases hskip : skipBlank false l with
    | nil => rfl
    | cons c rest =>
      rw [hskip, List.length_cons] at hblank
      dsimp only
      cases ht : readToken u c rest with
      | ok t =>
        rw [ok_bind, ok_bind]
        have hle : t.2.length ≤ _ := readToken_le u (t := t.1) ht
        exact tokenizeLoop_fuel (by omega) (by omega) _
      | err e => rfl
      | panic => rfl

/-- One token after the other. -/
theorem tokenize_cons {c : Char} {l : List Char} (hc : skipBlank false (c :: l) = c :: l) :
    tokenize u (c :: l) = readToken u c l >>= fun t => (t.1 :: ·) <$> tokenize u t.2 := by
  rw [tokenize, tokenizeLoop, hc]
  dsimp only
  cases ht : readToken u c l with
  | ok t =>
    have hle : t.2.length ≤ _ := readToken_le u (t := t.1) ht
    rw [ok_bind, ok_bind, List.nil_append, tokenizeLoop_acc, tokenize,
      tokenizeLoop_fuel u (by rw [List.length_cons]; omega) (Nat.lt_succ_self t.2.length)]
    rfl
  | err e => rfl
  | panic => rfl

end

/-! ## Integers -/

/-- The decimal text of an integer. -/
def decimal (n : ℤ) : List Char := if n < 0 then '-' :: Nat.toDigits 10 n.natAbs else Nat.toDigits 10 n.natAbs

theorem digitsNat_toDigits (n : ℕ) : digitsNat (Nat.toDigits 10 n) = n := by
  have h := Nat.ofDigitChars_ten_toDigits (n := n)
  rw [Nat.ofDigitChars_eq_foldl] at h
  exact h

theorem isDigit_of_mem_toDigits {n : ℕ} : ∀ c ∈ Nat.toDigits 10 n, c.isDigit = true := fun _ hc =>
  Nat.isDigit_of_mem_toDigits (by decide) (by decide) hc

/-- Digits have no sign in front. -/
theorem splitSign_digits {l : List Char} (h : ∀ c ∈ l, c.isDigit = true) : splitSign l = (false, l) := by
  unfold splitSign
  split
  · exact absurd (h '-' List.mem_cons_self) (by decide)
  · exact absurd (h '+' List.mem_cons_self) (by decide)
  · rfl

theorem minusSign_digits {l : List Char} (h : ∀ c ∈ l, c.isDigit = true) : minusSign l = (false, l) := by
  unfold minusSign
  split
  · exact absurd (h '-' List.mem_cons_self) (by decide)
  · rfl

theorem parseI64_digits {l : List Char} (hne : l ≠ []) (h : ∀ c ∈ l, c.isDigit = true) :
    parseI64 l = if digitsNat l < 2 ^ 63 then some (.ofNat (digitsNat l)) else none := by
  have hall : (l.isEmpty || !l.all Char.isDigit) = false := by
    rw [List.isEmpty_eq_false_iff.mpr hne, List.all_eq_true.mpr h]
    rfl
  rw [parseI64, splitSign_digits h]
  dsimp only
  rw [hall]
  rfl

/-- The token behind `=` for the digits of a number, with a minus or without one. -/
theorem readInt_digits (neg : Bool) (n : ℕ) : readInt ((if neg then ['-'] else []) ++ Nat.toDigits 10 n) =
    if n < 2 ^ 63 then .ok (.int (if neg then -.ofNat n else .ofNat n), [])
    else .err (.parseError s!"bad int: {String.ofList (Nat.toDigits 10 n)}") := by
  have hdigits := isDigit_of_mem_toDigits (n := n)
  have hsign : minusSign ((if neg then ['-'] else []) ++ Nat.toDigits 10 n) = (neg, Nat.toDigits 10 n) := by
    cases neg with
    | true => rfl
    | false => exact minusSign_digits hdigits
  have htake : (Nat.toDigits 10 n).takeWhile Char.isDigit = Nat.toDigits 10 n := List.takeWhile_eq_self_iff.mpr hdigits
  have hdrop : (Nat.toDigits 10 n).dropWhile Char.isDigit = [] := List.dropWhile_eq_nil_iff.mpr hdigits
  rw [readInt, hsign]
  dsimp only
  rw [htake, hdrop, parseI64_digits Nat.toDigits_ne_nil hdigits, digitsNat_toDigits]
  split <;> rfl

/-- Every integer but the least is read back from its text. -/
theorem tokenize_decimal (u : CharClasses) (n : Int64) :
    tokenize u ('=' :: decimal n.toInt) = .ok [.int n, .eof] ↔ n ≠ Int64.minValue := by
  have hlo := n.le_toInt
  have hhi := n.toInt_lt
  have htext : decimal n.toInt = (if decide (n.toInt < 0) then ['-'] else []) ++ Nat.toDigits 10 n.toInt.natAbs := by
    rw [decimal]
    by_cases h : n.toInt < 0
    · simp [h]
    · simp [h]
  have hvalue : (if decide (n.toInt < 0) then -Int64.ofNat n.toInt.natAbs else Int64.ofNat n.toInt.natAbs) = n := by
    conv_rhs => rw [← Int64.ofInt_toInt n]
    by_cases h : n.toInt < 0
    · rw [if_pos (decide_eq_true h), ← Int64.ofInt_eq_ofNat, ← Int64.ofInt_neg]
      congr 1
      omega
    · rw [if_neg (by rwa [decide_eq_true_iff]), ← Int64.ofInt_eq_ofNat]
      congr 1
      omega
  have hmin : n ≠ Int64.minValue ↔ n.toInt.natAbs < 2 ^ 63 := by
    rw [ne_eq, ← Int64.toInt_inj, show Int64.minValue.toInt = -2 ^ 63 from rfl]
    omega
  have hread : readToken u '=' (decimal n.toInt) = readInt (decimal n.toInt) := rfl
  rw [tokenize_cons u rfl, hread, htext, readInt_digits, hvalue, hmin]
  split
  · rename_i h
    exact iff_of_true rfl h
  · rename_i h
    exact iff_of_false (fun h => by cases h) h

/-! ## Strings -/

/-- The ways to write a character in a string. -/
inductive QuotedChar : Char → List Char → Prop
  | plain {c : Char} (hq : c ≠ '"') (hb : c ≠ '\\') : QuotedChar c [c]
  | backslash : QuotedChar '\\' ['\\', '\\']
  | quote : QuotedChar '"' ['\\', '"']
  | newline : QuotedChar '\n' ['\\', 'n']
  | return : QuotedChar '\r' ['\\', 'r']
  | tab : QuotedChar '\t' ['\\', 't']
  | nul : QuotedChar '\x00' ['\\', '0']
  | short {c : Char} {ds : List Char} (hlen : ds.length = 4) (h : hexNat ds = some c.toNat) : QuotedChar c ('\\' :: 'u' :: ds)
  | long {c : Char} {ds : List Char} (hlen : ds.length = 8) (h : hexNat ds = some c.toNat) : QuotedChar c ('\\' :: 'U' :: ds)

/-- The ways to write a text between its quotes. -/
inductive Quoted : List Char → List Char → Prop
  | nil : Quoted [] []
  | cons {c : Char} {s form body : List Char} (hc : QuotedChar c form) (h : Quoted s body) : Quoted (c :: s) (form ++ body)

/-- Digits are not signed. -/
theorem fromStrRadix16_hex {ds : List Char} {n : ℕ} (hne : ds ≠ []) (h : hexNat ds = some n) (hn : n < 2 ^ 32) :
    fromStrRadix16 ds = some n := by
  unfold fromStrRadix16
  split
  · cases h
  · rw [if_neg (by rwa [List.isEmpty_iff]), h]
    exact if_pos (decide_eq_true hn)

theorem charOfCode_toNat (c : Char) : charOfCode c.toNat = some c := by
  have hvalid : c.toNat.isValidChar := c.valid
  rw [charOfCode, dif_pos hvalid]
  exact congrArg some (Char.ext rfl)

/-- An escape of hexadecimal digits. -/
theorem readCode_hex {letter c : Char} {n : ℕ} {ds rest : List Char} (hlen : ds.length = n) (hpos : 0 < n)
    (h : hexNat ds = some c.toNat) : readCode letter n (ds ++ rest) = .ok (c, rest) := by
  have hne : ds ≠ [] := fun hnil => by
    rw [hnil] at hlen
    exact absurd hlen hpos.ne
  have hsmall : c.toNat < 2 ^ 32 := c.val.toNat_lt
  rw [readCode, List.take_left' hlen, fromStrRadix16_hex hne h hsmall, List.drop_left' hlen]
  dsimp only [ofOption_some, okOr_ok]
  rw [ok_bind, charOfCode_toNat]
  rfl

/-- The string goes on behind a character, however it is written. -/
theorem readString_quotedChar {c : Char} {form : List Char} (hc : QuotedChar c form) (fuel : ℕ) (acc rest : List Char) :
    readString (fuel + 1) acc (form ++ rest) = readString fuel (acc ++ [c]) rest := by
  cases hc with
  | plain hq hb => rw [List.singleton_append, readString, if_neg hq, if_neg hb]
  | short hlen h =>
    rw [List.cons_append, List.cons_append, readString, if_neg (by decide), if_pos rfl]
    rw [readEscape, readCode_hex hlen (by decide) h]
    rfl
  | long hlen h =>
    rw [List.cons_append, List.cons_append, readString, if_neg (by decide), if_pos rfl]
    rw [readEscape, readCode_hex hlen (by decide) h]
    rfl
  | _ => rfl

/-- A string goes on behind a text, however it is written. -/
theorem readString_quoted : ∀ {s body : List Char}, Quoted s body → ∀ (fuel : ℕ) (acc rest : List Char),
    readString (s.length + fuel) acc (body ++ rest) = readString fuel (acc ++ s) rest
  | _, _, .nil, fuel, acc, rest => by
    rw [List.length_nil, Nat.zero_add, List.nil_append, List.append_nil]
  | _, _, .cons (s := s) hc h, fuel, acc, rest => by
    rw [List.length_cons, show s.length + 1 + fuel = s.length + fuel + 1 by omega, List.append_assoc,
      readString_quotedChar hc, readString_quoted h, List.append_assoc, List.singleton_append]

theorem QuotedChar.length_pos {c : Char} {form : List Char} (h : QuotedChar c form) : 1 ≤ form.length := by
  cases h <;> exact Nat.succ_pos _

theorem Quoted.length_le : ∀ {s body : List Char}, Quoted s body → s.length ≤ body.length
  | _, _, .nil => Nat.le_refl 0
  | _, _, .cons hc h => by
    have hpos := hc.length_pos
    have ih := h.length_le
    rw [List.length_cons, List.length_append]
    omega

/-- The lexer on a text in quotes. -/
theorem tokenize_quoted (u : CharClasses) {s body : List Char} (h : Quoted s body) (tail : List Char) : ∃ fuel, tail.length < fuel ∧
    tokenize u ('"' :: (body ++ tail)) = readString fuel s tail >>= fun t => (.str (String.ofList t.1) :: ·) <$> tokenize u t.2 := by
  have hle := h.length_le
  obtain ⟨fuel, hfuel⟩ := Nat.exists_eq_add_of_le
    (show s.length ≤ (body ++ tail).length + 1 by rw [List.length_append]; omega)
  refine ⟨fuel, by rw [List.length_append] at hfuel; omega, ?_⟩
  have hread : readToken u '"' (body ++ tail) = readString (s.length + fuel) [] (body ++ tail) >>= fun t =>
      .ok (.str (String.ofList t.1), t.2) := by
    rw [← hfuel]
    rfl
  rw [tokenize_cons u rfl, hread, readString_quoted h, List.nil_append]
  cases readString fuel s tail with
  | ok t => rfl
  | err e => rfl
  | panic => rfl

/-- A text in quotes is read back, whatever follows. -/
theorem tokenize_str (u : CharClasses) {s body : List Char} (h : Quoted s body) (rest : List Char) :
    tokenize u ('"' :: (body ++ '"' :: rest)) = (.str (String.ofList s) :: ·) <$> tokenize u rest := by
  obtain ⟨fuel, hfuel, htok⟩ := tokenize_quoted u h ('"' :: rest)
  obtain ⟨fuel, rfl⟩ := Nat.exists_eq_add_of_le' (show 1 ≤ fuel by omega)
  rw [htok, readString, if_pos rfl, ok_bind]

/-! ## Ill-formed escapes -/

/-- What stands behind a backslash and is no escape: another letter, or `u` and `U` with four and eight characters that
are not the hexadecimal number of a character. -/
inductive BadEscape : List Char → Prop
  | letter {c : Char} (h : c ∉ ['\\', '"', 'n', 'r', 't', '0', 'u', 'U']) : BadEscape [c]
  | short {ds : List Char} (hlen : ds.length = 4) (h : ¬ ∃ c : Char, hexNat ds = some c.toNat) : BadEscape ('u' :: ds)
  | long {ds : List Char} (hlen : ds.length = 8) (h : ¬ ∃ c : Char, hexNat ds = some c.toNat) : BadEscape ('U' :: ds)

/-- An escape that the end of the text cuts off. -/
inductive CutEscape : List Char → Prop
  | backslash : CutEscape []
  | short {ds : List Char} (hlen : ds.length < 4) : CutEscape ('u' :: ds)
  | long {ds : List Char} (hlen : ds.length < 8) : CutEscape ('U' :: ds)

/-- A plus stands for the first digit. -/
def SignedEscape (e : List Char) : Prop :=
  ∃ ds c, (e = 'u' :: '+' :: ds ∨ e = 'U' :: '+' :: ds) ∧ hexNat ds = some (Char.toNat c)

theorem charOfCode_eq_some {n : ℕ} {c : Char} (h : charOfCode n = some c) : n = c.toNat := by
  rw [charOfCode] at h
  by_cases hn : n.isValidChar
  · rw [dif_pos hn] at h
    cases h
    rfl
  · rw [dif_neg hn] at h
    cases h

/-- What characters become a code: hexadecimal digits, behind a plus or not. -/
theorem readCode_cases {letter : Char} {n : ℕ} {ds rest : List Char} (htake : (ds ++ rest).take n = ds)
    (hdrop : (ds ++ rest).drop n = rest) : (∃ e, readCode letter n (ds ++ rest) = .err e) ∨
      ∃ c, readCode letter n (ds ++ rest) = .ok (c, rest) ∧
        (hexNat ds = some c.toNat ∨ ∃ ds', ds = '+' :: ds' ∧ hexNat ds' = some c.toNat) := by
  rw [readCode, htake, hdrop]
  cases hcode : fromStrRadix16 ds with
  | none => exact .inl ⟨_, rfl⟩
  | some code =>
    rw [ofOption_some, okOr_ok, ok_bind]
    cases hc : charOfCode code with
    | none => exact .inl ⟨_, rfl⟩
    | some c =>
      refine .inr ⟨c, rfl, ?_⟩
      rw [← charOfCode_eq_some hc]
      unfold fromStrRadix16 at hcode
      split at hcode
      · rename_i ds'
        right
        dsimp only at hcode
        split at hcode
        · cases hcode
        · exact ⟨ds', rfl, (Option.filter_eq_some_iff.mp hcode).1⟩
      · left
        dsimp only at hcode
        split at hcode
        · cases hcode
        · exact (Option.filter_eq_some_iff.mp hcode).1

/-- A signed code is read as if its plus were a zero. -/
theorem readCode_signed {letter c : Char} {n : ℕ} {ds rest : List Char} (hlen : ds.length = n) (hpos : 0 < n)
    (h : hexNat ds = some c.toNat) : readCode letter (n + 1) ('+' :: (ds ++ rest)) = .ok (c, rest) := by
  have hne : ds.isEmpty = false := List.isEmpty_eq_false_iff.mpr fun hnil => by
    rw [hnil] at hlen
    exact absurd hlen hpos.ne
  have hcode : fromStrRadix16 ('+' :: ds) = some c.toNat := by
    rw [fromStrRadix16, if_neg (by rw [hne]; exact Bool.false_ne_true), h]
    exact if_pos (decide_eq_true c.val.toNat_lt)
  rw [readCode, List.take_succ_cons, List.take_left' hlen, hcode, List.drop_succ_cons, List.drop_left' hlen]
  dsimp only [ofOption_some, okOr_ok]
  rw [ok_bind, charOfCode_toNat]
  rfl

section

variable (u : CharClasses) {s body : List Char} (h : Quoted s body)

include h

/-- An escape that cannot be read is the error of the whole. -/
theorem tokenize_bad_escape {tail : List Char} (he : ∃ e, readEscape tail = .err e) :
    ∃ e, tokenize u ('"' :: (body ++ '\\' :: tail)) = .err e := by
  obtain ⟨e, he⟩ := he
  obtain ⟨fuel, hfuel, htok⟩ := tokenize_quoted u h ('\\' :: tail)
  obtain ⟨fuel, rfl⟩ := Nat.exists_eq_add_of_le' (show 1 ≤ fuel by omega)
  rw [htok, readString, if_neg (by decide), if_pos rfl, he]
  exact ⟨e, rfl⟩

/-- An escape at the end of a text is an error, whatever it is. -/
theorem tokenize_cut_escape {e : List Char} (he : CutEscape e) :
    ∃ err, tokenize u ('"' :: (body ++ '\\' :: e)) = .err err := by
  have hcut : ∀ {letter : Char} {n : ℕ} {ds : List Char}, ds.length < n → readEscape (letter :: ds) = readCode letter n ds →
      ∃ err, tokenize u ('"' :: (body ++ '\\' :: letter :: ds)) = .err err := by
    intro letter n ds hlen hescape
    have hall := @readCode_cases letter n ds []
      (by rw [List.append_nil, List.take_of_length_le hlen.le]) (by rw [List.append_nil, List.drop_of_length_le hlen.le])
    rw [List.append_nil, ← hescape] at hall
    rcases hall with herr | ⟨c, hok, -⟩
    · exact tokenize_bad_escape u h herr
    · obtain ⟨fuel, hfuel, htok⟩ := tokenize_quoted u h ('\\' :: letter :: ds)
      rw [List.length_cons, List.length_cons] at hfuel
      obtain ⟨fuel, rfl⟩ := Nat.exists_eq_add_of_le' (show 2 ≤ fuel by omega)
      rw [htok, readString, if_neg (by decide), if_pos rfl, hok]
      exact ⟨_, rfl⟩
  cases he with
  | backslash => exact tokenize_bad_escape u h ⟨_, rfl⟩
  | short hlen => exact hcut hlen rfl
  | long hlen => exact hcut hlen rfl

/-- What is no escape is an error, unless it is signed. -/
theorem tokenize_escape {e : List Char} (he : BadEscape e) (hsigned : ¬ SignedEscape e) (after : List Char) :
    ∃ err, tokenize u ('"' :: (body ++ '\\' :: (e ++ after))) = .err err := by
  refine tokenize_bad_escape u h ?_
  cases he with
  | letter hc =>
    simp only [List.mem_cons, List.not_mem_nil, or_false, not_or] at hc
    rw [List.singleton_append]
    unfold readEscape
    split
    all_goals simp_all
  | short hlen hno =>
    rcases @readCode_cases 'u' _ _ after (List.take_left' hlen) (List.drop_left' hlen) with herr | ⟨c, -, hhex⟩
    · exact herr
    · rcases hhex with hhex | ⟨ds', rfl, hhex⟩
      · exact absurd ⟨c, hhex⟩ hno
      · exact absurd ⟨ds', c, .inl rfl, hhex⟩ hsigned
  | long hlen hno =>
    rcases @readCode_cases 'U' _ _ after (List.take_left' hlen) (List.drop_left' hlen) with herr | ⟨c, -, hhex⟩
    · exact herr
    · rcases hhex with hhex | ⟨ds', rfl, hhex⟩
      · exact absurd ⟨c, hhex⟩ hno
      · exact absurd ⟨ds', c, .inr rfl, hhex⟩ hsigned

end

/-- A signed escape is accepted where the string ends behind it. -/
theorem tokenize_signed (u : CharClasses) {e : List Char} (he : BadEscape e) (hsigned : SignedEscape e) :
    ∃ c, tokenize u ('"' :: '\\' :: (e ++ ['"'])) = .ok [.str (String.ofList [c]), .eof] := by
  obtain ⟨ds, c, hform, hhex⟩ := hsigned
  have hread : readEscape (e ++ ['"']) = .ok (c, ['"']) := by
    rcases hform with rfl | rfl
    · cases he with
      | short hlen => exact readCode_signed (Nat.succ.inj hlen) (by decide) hhex
    · cases he with
      | long hlen => exact readCode_signed (Nat.succ.inj hlen) (by decide) hhex
  obtain ⟨fuel, hfuel, htok⟩ := tokenize_quoted u .nil ('\\' :: (e ++ ['"']))
  rw [List.length_cons, List.length_append] at hfuel
  obtain ⟨fuel, rfl⟩ := Nat.exists_eq_add_of_le' (show 2 ≤ fuel by omega)
  refine ⟨c, ?_⟩
  rw [List.nil_append] at htok
  rw [htok, readString, if_neg (by decide), if_pos rfl, hread]
  rfl

/-! ## Literals -/

/-- Every integer but the least is read back from its text, every text from its quotes, and what is no escape is
rejected in every string unless a plus stands for its first digit. -/
theorem lex_literals (u : CharClasses) :
    (∀ n : Int64, tokenize u ('=' :: decimal n.toInt) = .ok [.int n, .eof] ↔ n ≠ Int64.minValue) ∧
      (∀ s body, Quoted s body → ∀ rest,
        tokenize u ('"' :: (body ++ '"' :: rest)) = (.str (String.ofList s) :: ·) <$> tokenize u rest) ∧
      (∀ e, BadEscape e → ((∀ s body, Quoted s body → ∀ after,
        ∃ err, tokenize u ('"' :: (body ++ '\\' :: (e ++ after))) = .err err) ↔ ¬ SignedEscape e)) ∧
      ∀ e, CutEscape e → ∀ s body, Quoted s body → ∃ err, tokenize u ('"' :: (body ++ '\\' :: e)) = .err err := by
  refine ⟨tokenize_decimal u, fun s body h rest => tokenize_str u h rest, fun e he => ⟨fun hall hsigned => ?_, ?_⟩,
    fun e he s body h => tokenize_cut_escape u h he⟩
  · obtain ⟨err, herr⟩ := hall [] [] .nil ['"']
    obtain ⟨c, hok⟩ := tokenize_signed u he hsigned
    rw [List.nil_append, hok] at herr
    cases herr
  · exact fun hsigned s body h after => tokenize_escape u h he hsigned after

/-- The classes of the characters of ASCII. -/
def asciiClasses : CharClasses := ⟨Char.isAlpha, Char.isDigit, fun _ _ => ⟨rfl, rfl⟩⟩

/-- The least integer is rejected, and the escape `\u+041` is accepted. -/
theorem lex_literals_not : tokenize asciiClasses ('=' :: decimal Int64.minValue.toInt) =
    .err (.parseError "bad int: 9223372036854775808") ∧
      tokenize asciiClasses ['"', '\\', 'u', '+', '0', '4', '1', '"'] = .ok [.str "A", .eof] := by
  decide +kernel

end Nyxis
