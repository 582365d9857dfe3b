import Nyxis.Source
import Mathlib.Data.List.TakeWhile

/-!
# MacroText — the tests that a macro goes through

`evalMacro` works on text: it tests how the text begins and ends and splits it at the first ` + `.  This file
has one lemma for each outcome of the tests: a reference, a text between two quotes, a number, a sum, and a
quote that is not closed.
-/

namespace Nyxis

open Lib Lib.Outcome

/-! ## Trimmed text -/

/-- Text that `trim` leaves alone, and that is not empty. -/
structure Trimmed (l : List Char) : Prop where
  head : ∃ c, l.head? = some c ∧ isWhitespace c = false
  last : ∃ c, l.getLast? = some c ∧ isWhitespace c = false

theorem dropWhile_of_head {p : Char → Bool} {l : List Char} (h : ∃ c, l.head? = some c ∧ p c = false) :
    l.dropWhile p = l := by
  obtain ⟨c, hc, hp⟩ := h
  cases l with
  | nil => rfl
  | cons d l =>
    cases hc
    exact List.dropWhile_cons_of_neg (by simp [hp])

theorem Trimmed.trim_eq {l : List Char} (h : Trimmed l) : trim l = l := by
  unfold trim
  rw [dropWhile_of_head h.head, dropWhile_of_head (by rw [List.head?_reverse]; exact h.last), List.reverse_reverse]

theorem trim_length_le (l : List Char) : (trim l).length ≤ l.length := by
  unfold trim
  rw [List.length_reverse]
  calc _ ≤ (l.dropWhile isWhitespace).reverse.length := (List.dropWhile_sublist _).length_le
    _ = (l.dropWhile isWhitespace).length := List.length_reverse
    _ ≤ l.length := (List.dropWhile_sublist _).length_le

theorem Trimmed.append {a b : List Char} (ha : Trimmed a) (hb : Trimmed b) (m : List Char) : Trimmed (a ++ (m ++ b)) := by
  obtain ⟨c, hc, hcw⟩ := ha.head
  obtain ⟨d, hd, hdw⟩ := hb.last
  exact ⟨⟨c, by simp [List.head?_append, hc], hcw⟩, ⟨d, by simp [List.getLast?_append, hd], hdw⟩⟩

/-- Text that opens with a character that is no blank loses its end only. -/
theorem trim_cons {c : Char} (hc : isWhitespace c = false) (l : List Char) : ∃ m, trim (c :: l) = c :: m ∧ m ⊆ l := by
  refine ⟨(l.reverse.dropWhile isWhitespace).reverse, ?_, ?_⟩
  · unfold trim
    rw [List.dropWhile_cons_of_neg (by simp [hc]), List.reverse_cons, List.dropWhile_append]
    by_cases hl : (l.reverse.dropWhile isWhitespace).isEmpty
    · rw [if_pos hl, List.dropWhile_cons_of_neg (by simp [hc]), List.isEmpty_iff.mp hl]
      rfl
    · rw [if_neg hl, List.reverse_append]
      rfl
  · intro x hx
    exact List.mem_reverse.mp ((List.dropWhile_sublist _).mem (List.mem_reverse.mp hx))

/-! ## The first ` + ` -/

/-- The text of a sum of two texts. -/
def sumText (a b : List Char) : List Char := a ++ ([' ', '+', ' '] ++ b)

theorem splitPlus_cons (c : Char) (l : List Char) : splitPlus (c :: l) =
    if c = ' ' ∧ l.take 2 = ['+', ' '] then some ([], l.drop 2)
    else (splitPlus l).map fun (left, right) => (c :: left, right) := by
  rw [splitPlus]
  split
  · rename_i right h
    cases h
    rfl
  · rename_i hno
    rw [if_neg]
    rintro ⟨rfl, hl⟩
    apply hno (l.drop 2)
    rw [← List.take_append_drop 2 l, hl, List.drop_append]
    rfl

theorem splitPlus_cons_of_ne {c : Char} (hc : c ≠ ' ') (l : List Char) :
    splitPlus (c :: l) = (splitPlus l).map fun (left, right) => (c :: left, right) := by
  rw [splitPlus_cons, if_neg fun h => hc h.1]

theorem splitPlus_eq : ∀ {l a b : List Char}, splitPlus l = some (a, b) → l = sumText a b
  | [], a, b, h => by cases h
  | c :: l, a, b, h => by
    rw [splitPlus_cons] at h
    split at h
    · rename_i hl
      cases h
      rw [← List.take_append_drop 2 l, hl.2, hl.1]
      rfl
    · obtain ⟨⟨a', b'⟩, hl, hab⟩ := Option.map_eq_some_iff.mp h
      cases hab
      rw [splitPlus_eq hl]
      rfl

theorem splitPlus_length {l a b : List Char} (h : splitPlus l = some (a, b)) : a.length + b.length + 3 = l.length := by
  rw [splitPlus_eq h]
  unfold sumText
  simp only [List.length_append, List.length_cons, List.length_nil]
  omega

/-- Text without a blank is the left part of a sum. -/
theorem splitPlus_word : ∀ {a : List Char} (b : List Char), ' ' ∉ a → splitPlus (sumText a b) = some (a, b)
  | [], b, _ => rfl
  | c :: a, b, h => by
    have hc : c ≠ ' ' := fun hc => h (by simp [hc])
    have ih := splitPlus_word (a := a) b fun ha => h (by simp [ha])
    unfold sumText at ih ⊢
    rw [List.cons_append, splitPlus_cons_of_ne hc, ih]
    rfl

/-- Text in quotes that has no ` + ` of its own is the left part of a sum. -/
theorem splitPlus_string : ∀ {s : List Char} (b : List Char), splitPlus s = none →
    splitPlus (s ++ '"' :: sumText [] b) = some (s ++ ['"'], b)
  | [], b, _ => rfl
  | c :: s, b, h => by
    rw [splitPlus_cons] at h
    split at h
    · cases h
    rename_i hno
    have ih := splitPlus_string b (Option.map_eq_none_iff.mp h)
    rw [List.cons_append, splitPlus_cons, ih, if_neg]
    · rfl
    · -- the quote is no part of a ` + `
      rintro ⟨rfl, ht⟩
      apply hno
      refine ⟨rfl, ?_⟩
      rcases s with _ | ⟨x, _ | ⟨y, s⟩⟩ <;> simp_all

/-- A text that has a ` + ` is split there whatever follows. -/
theorem splitPlus_append : ∀ {l a b : List Char} (x : List Char), splitPlus l = some (a, b) →
    splitPlus (l ++ x) = some (a, b ++ x)
  | [], a, b, x, h => by cases h
  | c :: l, a, b, x, h => by
    rw [splitPlus_cons] at h
    rw [List.cons_append, splitPlus_cons]
    split at h
    · rename_i hl
      cases h
      have hlen : 2 ≤ l.length := by
        have := congrArg List.length hl.2
        simp only [List.length_take, List.length_cons, List.length_nil] at this
        omega
      rw [if_pos ⟨hl.1, by rw [List.take_append_of_le_length hlen, hl.2]⟩, List.drop_append_of_le_length hlen]
    · rename_i hno
      obtain ⟨⟨a', b'⟩, hl, hab⟩ := Option.map_eq_some_iff.mp h
      cases hab
      have hlen := splitPlus_length hl
      rw [if_neg, splitPlus_append x hl]
      · rfl
      · rintro ⟨hc, ht⟩
        rw [List.take_append_of_le_length (by omega)] at ht
        exact hno ⟨hc, ht⟩

/-! ## Numbers -/

/-- The value of a text that is a number. -/
def numberValue (l : List Char) : Option Value :=
  match parseI64 l with
  | some n => some (.int n)
  | none => (parseF64 l).map .float

/-- A character that the text of a number may have. -/
def numberChar (c : Char) : Prop :=
  c.isDigit = true ∨ c = '+' ∨ c = '-' ∨ c = '.' ∨ c.toLower ∈ ['e', 'i', 'n', 'f', 't', 'y', 'a']

theorem splitSign_mem {l digits : List Char} {neg : Bool} (h : splitSign l = (neg, digits)) {c : Char} (hc : c ∈ l) :
    c = '+' ∨ c = '-' ∨ c ∈ digits := by
  unfold splitSign at h
  split at h <;> cases h
  · rcases List.mem_cons.mp hc with rfl | hc
    · exact .inr (.inl rfl)
    · exact .inr (.inr hc)
  · rcases List.mem_cons.mp hc with rfl | hc
    · exact .inl rfl
    · exact .inr (.inr hc)
  · exact .inr (.inr hc)

theorem parseI64_chars {l : List Char} {n : Int64} (h : parseI64 l = some n) : ∀ c ∈ l, numberChar c := by
  intro c hc
  unfold parseI64 at h
  rcases hs : splitSign l with ⟨neg, digits⟩
  simp only [hs] at h
  split at h
  · cases h
  rename_i hd
  simp only [Bool.or_eq_true, Bool.not_eq_true', not_or, Bool.not_eq_false, List.all_eq_true] at hd
  rcases splitSign_mem hs hc with hc | hc | hc
  · exact .inr (.inl hc)
  · exact .inr (.inr (.inl hc))
  · exact .inl (hd.2 c hc)

theorem parseExponent_chars {l : List Char} {e : ℤ} (h : parseExponent l = some e) : ∀ c ∈ l, numberChar c := by
  intro c hc
  match l, h, hc with
  | d :: rest, h, hc =>
    unfold parseExponent at h
    rcases hs : splitSign rest with ⟨neg, digits⟩
    simp only [hs] at h
    split at h
    · cases h
    rename_i hd
    simp only [not_or, not_and_or, not_not, List.all_eq_true] at hd
    rcases List.mem_cons.mp hc with rfl | hc
    · rcases hd.1 with rfl | rfl <;> exact .inr (.inr (.inr (.inr (by decide))))
    · rcases splitSign_mem hs hc with hc | hc | hc
      · exact .inr (.inl hc)
      · exact .inr (.inr (.inl hc))
      · exact .inl (hd.2.2 c hc)

theorem parseMagnitude_chars {l : List Char} {x : F64} (h : parseMagnitude l = some x) : ∀ c ∈ l, numberChar c := by
  intro c hc
  have hlow : c.toLower ∈ l.map Char.toLower := List.mem_map_of_mem hc
  unfold parseMagnitude at h
  simp only at h
  split at h
  · rename_i hinf
    right; right; right; right
    rcases hinf with hinf | hinf <;> rw [hinf] at hlow <;> simp at hlow ⊢ <;> tauto
  split at h
  · rename_i hnan
    right; right; right; right
    rw [hnan] at hlow
    simp at hlow ⊢
    tauto
  · have hdigit : ∀ {m : List Char}, c ∈ m.takeWhile Char.isDigit → numberChar c := fun hm =>
      .inl (List.mem_takeWhile_imp hm)
    have hexp : ∀ {m : List Char} {e : ℕ} {w : List Char}, (parseExponent m).map
        (fun e' => decimalF64 (digitsNat w) (e' - e)) = some x → c ∈ m → numberChar c := fun hm hcm => by
      obtain ⟨e', he, -⟩ := Option.map_eq_some_iff.mp hm
      exact parseExponent_chars he c hcm
    rw [← List.takeWhile_append_dropWhile (p := Char.isDigit) (l := l)] at hc
    rcases List.mem_append.mp hc with hc | hc
    · exact hdigit hc
    split at h
    · rename_i hdot
      rw [hdot] at hc
      split at h
      · cases h
      rcases List.mem_cons.mp hc with rfl | hc
      · exact .inr (.inr (.inr (.inl rfl)))
      · rename_i more _ _
        rw [← List.takeWhile_append_dropWhile (p := Char.isDigit) (l := more)] at hc
        rcases List.mem_append.mp hc with hc | hc
        · exact hdigit hc
        · exact hexp h hc
    · split at h
      · cases h
      · exact hexp h hc

theorem numberValue_chars {l : List Char} {v : Value} (h : numberValue l = some v) : ∀ c ∈ l, numberChar c := by
  unfold numberValue at h
  split at h
  · rename_i n hn
    exact parseI64_chars hn
  · obtain ⟨f, hf, -⟩ := Option.map_eq_some_iff.mp h
    unfold parseF64 at hf
    rcases hs : splitSign l with ⟨neg, body⟩
    simp only [hs] at hf
    obtain ⟨x, hx, -⟩ := Option.map_eq_some_iff.mp hf
    intro c hc
    rcases splitSign_mem hs hc with hc | hc | hc
    · exact .inr (.inl hc)
    · exact .inr (.inr (.inl hc))
    · exact parseMagnitude_chars hx c hc

theorem numberValue_ne_nil {l : List Char} {v : Value} (h : numberValue l = some v) : l ≠ [] := by
  rintro rfl
  cases h

/-- The characters that tell the other texts from a number. -/
theorem numberChar.ne {c : Char} (h : numberChar c) : isWhitespace c = false ∧ c ≠ '"' ∧ c ≠ '@' ∧ c ≠ '(' := by
  rcases h with h | rfl | rfl | rfl | h
  · have hd : 48 ≤ c.toNat ∧ c.toNat ≤ 57 := by
      simp only [Char.isDigit, Bool.and_eq_true, decide_eq_true_eq] at h
      exact ⟨h.1, h.2⟩
    refine ⟨?_, ?_, ?_, ?_⟩
    · unfold isWhitespace
      simp
      omega
    all_goals
      rintro rfl
      revert hd
      decide
  · decide
  · decide
  · decide
  · have hd : c.toNat ≤ 90 ∧ 65 ≤ c.toNat ∨ c.toLower = c := by
      unfold Char.toLower
      split
      · rename_i hu
        exact .inl ⟨hu.2, hu.1⟩
      · exact .inr rfl
    rcases hd with hd | hd
    · refine ⟨?_, ?_, ?_, ?_⟩
      · unfold isWhitespace
        simp
        omega
      all_goals
        rintro rfl
        revert hd
        decide
    · rw [hd] at h
      simp only [List.mem_cons, List.not_mem_nil, or_false] at h
      rcases h with rfl | rfl | rfl | rfl | rfl | rfl | rfl <;> decide

/-! ## One evaluation -/

/-- `eval_macro` of a text. -/
def evalText (scope : List Field) (text : List Char) : Res Value := evalMacro scope (text.length + 1) text

/-- The tests that a text other than a reference goes through. -/
theorem evalMacro_succ (scope : List Field) (fuel : ℕ) {text expr : List Char} (hexpr : trim text = expr)
    (hat : expr.head? ≠ some '@') : evalMacro scope (fuel + 1) text =
      if expr = ['n', 'o', 'w', '(', ')'] then .ok (.time 0)
      else if expr.head? = some '"' ∧ expr.getLast? = some '"' then
        if expr.length < 2 then .panic else .ok (.str (String.ofList expr.tail.dropLast))
      else
        match numberValue expr, splitPlus expr with
        | some v, _ => .ok v
        | none, some (left, right) => do
          let a ← evalMacro scope fuel (trim left)
          let b ← evalMacro scope fuel (trim right)
          addValues expr a b
        | none, none => .err (.macroUnresolved s!"cannot evaluate: {String.ofList expr}") := by
  rw [evalMacro, hexpr]
  unfold numberValue
  split
  · exact absurd rfl hat
  · cases parseI64 expr with
    | some n => rfl
    | none =>
      cases parseF64 expr with
      | some f => rfl
      | none => cases splitPlus expr <;> rfl

theorem evalMacro_at (scope : List Field) (fuel : ℕ) {text key : List Char} (h : trim text = '@' :: key) :
    evalMacro scope (fuel + 1) text =
      okOr (ofOption ((scope.find? fun f => f.key == String.ofList key).map Field.value))
        (.macroUnresolved s!"@{String.ofList key} not found in scope") := by
  rw [evalMacro, h]
  rfl

theorem evalMacro_fuel (scope : List Field) : ∀ {fuel fuel' : ℕ} {text : List Char}, text.length < fuel →
    text.length < fuel' → evalMacro scope fuel text = evalMacro scope fuel' text
  | 0, _, _, h, _ => absurd h (Nat.not_lt_zero _)
  | _ + 1, 0, _, _, h => absurd h (Nat.not_lt_zero _)
  | fuel + 1, fuel' + 1, text, h, h' => by
    have htrim := trim_length_le text
    -- both parts of a sum are shorter than the sum
    have hsame : ∀ {part left right : List Char}, splitPlus (trim text) = some (left, right) →
        part = left ∨ part = right → evalMacro scope fuel (trim part) = evalMacro scope fuel' (trim part) := by
      intro part left right hs hp
      have hlen := splitPlus_length hs
      have hpart := trim_length_le part
      have : part.length ≤ left.length + right.length := by rcases hp with rfl | rfl <;> omega
      exact evalMacro_fuel scope (by omega) (by omega)
    by_cases hat : (trim text).head? = some '@'
    · obtain ⟨key, hkey⟩ := List.head?_eq_some_iff.mp hat
      rw [evalMacro_at scope fuel hkey, evalMacro_at scope fuel' hkey]
    · rw [evalMacro_succ scope fuel rfl hat, evalMacro_succ scope fuel' rfl hat]
      cases hs : splitPlus (trim text) with
      | none => cases numberValue (trim text) <;> rfl
      | some parts =>
        obtain ⟨left, right⟩ := parts
        cases numberValue (trim text) with
        | some v => rfl
        | none => simp only [hsame hs (.inl rfl), hsame hs (.inr rfl)]

theorem resolveMacro_ofList (scope : List Field) (text : List Char) :
    resolveMacro scope (.expr (String.ofList text)) = evalText scope text := by
  show evalMacro scope ((String.ofList text).length + 1) (String.ofList text).toList = evalText scope text
  rw [String.length_ofList, String.toList_ofList]
  rfl

/-- The value of a key in the scope. -/
def lookupKey (scope : List Field) (key : List Char) : Option Value :=
  (scope.find? fun f => f.key == String.ofList key).map Field.value

/-- What a text that stands for a value, or for nothing, evaluates to. -/
def Gives (r : Res Value) : Option Value → Prop
  | some v => r = .ok v
  | none => ∃ e, r = .err e

theorem Gives.of_ok {r : Res Value} {o : Option Value} {v : Value} (h : Gives r o) (hr : r = .ok v) : o = some v := by
  cases o with
  | none =>
    obtain ⟨e, he⟩ := h
    cases hr.symm.trans he
  | some w =>
    have hw : r = .ok w := h
    cases hr.symm.trans hw
    rfl

theorem Gives.unique {r : Res Value} {a b : Option Value} (ha : Gives r a) (hb : Gives r b) : a = b := by
  cases a with
  | some v => exact (hb.of_ok ha).symm
  | none =>
    cases b with
    | none => rfl
    | some w => exact ha.of_ok hb

/-- A reference. -/
theorem evalText_ref (scope : List Field) {key : List Char} (h : Trimmed ('@' :: key)) :
    Gives (evalText scope ('@' :: key)) (lookupKey scope key) := by
  unfold evalText lookupKey
  rw [evalMacro_at scope _ h.trim_eq]
  cases scope.find? fun f => f.key == String.ofList key with
  | none => exact ⟨_, rfl⟩
  | some f => rfl

/-- A text between two quotes is one string, whatever stands between them. -/
theorem evalText_quoted (scope : List Field) (s : List Char) :
    evalText scope ('"' :: (s ++ ['"'])) = .ok (.str (String.ofList s)) := by
  have hlast : ('"' :: (s ++ ['"'])).getLast? = some '"' := by
    rw [← List.cons_append, List.getLast?_concat]
  have htrim : Trimmed ('"' :: (s ++ ['"'])) := ⟨⟨'"', rfl, by decide⟩, ⟨'"', hlast, by decide⟩⟩
  unfold evalText
  rw [evalMacro_succ scope _ htrim.trim_eq (by simp), if_neg (by simp), if_pos ⟨rfl, hlast⟩, if_neg (by simp),
    List.tail_cons, List.dropLast_concat]

/-- A number. -/
theorem evalText_number (scope : List Field) {text : List Char} {v : Value} (h : numberValue text = some v)
    (ht : Trimmed text) : evalText scope text = .ok v := by
  have hne := fun c hc => (numberValue_chars h c hc).ne
  unfold evalText
  rw [evalMacro_succ scope _ ht.trim_eq, if_neg, if_neg, h]
  · intro hq
    exact (hne '"' (List.mem_of_head? hq.1)).2.1 rfl
  · rintro rfl
    exact (hne '(' (by decide)).2.2.2 rfl
  · intro hat
    exact (hne '@' (List.mem_of_head? hat)).2.2.1 rfl

theorem numberValue_of_mem {l : List Char} {c : Char} (hc : c ∈ l) (hn : ¬ numberChar c) : numberValue l = none := by
  cases h : numberValue l with
  | none => rfl
  | some v => exact absurd (numberValue_chars h c hc) hn

theorem sumText_head? {a : List Char} (ha : Trimmed a) (b : List Char) : (sumText a b).head? = a.head? := by
  obtain ⟨c, hc, -⟩ := ha.head
  unfold sumText
  rw [List.head?_append, hc]
  rfl

theorem sumText_getLast? (a : List Char) {b : List Char} (hb : Trimmed b) : (sumText a b).getLast? = b.getLast? := by
  obtain ⟨c, hc, -⟩ := hb.last
  unfold sumText
  rw [List.getLast?_append, List.getLast?_append, hc]
  rfl

theorem Trimmed.sum {a b : List Char} (ha : Trimmed a) (hb : Trimmed b) : Trimmed (sumText a b) :=
  ⟨by rw [sumText_head? ha]; exact ha.head, by rw [sumText_getLast? a hb]; exact hb.last⟩

/-- A sum whose first ` + ` is the one between its two texts. -/
theorem evalText_sum (scope : List Field) {a b : List Char} (ha : Trimmed a) (hb : Trimmed b) (hat : a.head? ≠ some '@')
    (hq : ¬ (a.head? = some '"' ∧ b.getLast? = some '"')) (hs : splitPlus (sumText a b) = some (a, b)) :
    evalText scope (sumText a b) =
      (evalText scope a >>= fun x => evalText scope b >>= fun y => addValues (sumText a b) x y) := by
  have hblank : ' ' ∈ sumText a b := by simp [sumText]
  have hnum : numberValue (sumText a b) = none :=
    numberValue_of_mem hblank fun h => absurd h.ne.1 (by decide)
  have hlen := splitPlus_length hs
  have hrec : ∀ {part : List Char}, Trimmed part → part.length ≤ a.length + b.length →
      evalMacro scope (sumText a b).length (trim part) = evalText scope part := by
    intro part hpart hle
    rw [hpart.trim_eq]
    exact evalMacro_fuel scope (by omega) (by omega)
  rw [evalText, evalMacro_succ scope _ (ha.sum hb).trim_eq, if_neg, if_neg, hnum, hs]
  · simp only
    rw [hrec ha (by omega), hrec hb (by omega)]
  · rw [sumText_head? ha, sumText_getLast? a hb]
    exact hq
  · intro hnow
    rw [hnow] at hblank
    exact absurd hblank (by decide)
  · rw [sumText_head? ha]
    exact hat

/-- A text that opens a quote and does not close it has no value. -/
theorem evalMacro_open (scope : List Field) : ∀ (fuel : ℕ) {s : List Char}, '"' ∉ s → ∀ v,
    evalMacro scope fuel ('"' :: s) ≠ .ok v
  | 0, s, _, v => by
    intro h
    cases h
  | fuel + 1, s, hs, v => by
    intro h
    obtain ⟨m, hm, hsub⟩ := trim_cons (c := '"') (by decide) s
    have hmq : '"' ∉ m := fun hq => hs (hsub hq)
    have hnum : numberValue ('"' :: m) = none :=
      numberValue_of_mem List.mem_cons_self fun h => absurd rfl h.ne.2.1
    rw [evalMacro_succ scope fuel hm (by simp), if_neg (by simp), hnum] at h
    split at h
    · rename_i hq
      rcases List.eq_nil_or_concat' m with rfl | ⟨m', c, rfl⟩
      · cases h
      · rw [← List.cons_append, List.getLast?_concat] at hq
        exact hmq (by rw [Option.some.inj hq.2]; exact List.mem_append_right _ List.mem_cons_self)
    · cases hsp : splitPlus ('"' :: m) with
      | none =>
        rw [hsp] at h
        cases h
      | some parts =>
        -- the left part opens the same quote
        obtain ⟨left, right⟩ := parts
        rw [hsp] at h
        obtain ⟨a, ha, -⟩ := bind_eq_ok.mp h
        rw [splitPlus_cons_of_ne (by decide)] at hsp
        obtain ⟨⟨left', right'⟩, hsp', hparts⟩ := Option.map_eq_some_iff.mp hsp
        cases hparts
        obtain ⟨m', hm', hsub'⟩ := trim_cons (c := '"') (by decide) left'
        rw [hm'] at ha
        refine evalMacro_open scope fuel (fun hq => hmq ?_) a ha
        rw [splitPlus_eq hsp']
        exact List.mem_append_left _ (hsub' hq)

end Nyxis
