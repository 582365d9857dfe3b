import Nyxis.MacroText
import Nyxis.Lexer

/-!
# Macros — expressions and what their text evaluates to

A `MacroExpr` is an expression of the language, `MacroExpr.text` how it is written and `MacroExpr.meaning` its
value in a scope.  The text says no more than the row of terms, and it is not read as that row in three cases: a
reference takes all that stands behind its `@` for the key, a text between two quotes is one string whatever stands
between them, and a ` + ` is found in quotes as well.  `Apart` says that a row of terms meets none of them; its value
is then the sum from the right, which need not be the sum that the expression asks for where numbers are added.
-/

namespace Nyxis

open Lib Lib.Outcome

/-! ## Expressions -/

/-- A literal number and its value. -/
structure NumberText where
  text : List Char
  value : Value
  reads : numberValue text = some value

/-- What stands between the quotes of a literal string. -/
structure QuotedText where
  chars : List Char
  unquoted : '"' ∉ chars

/-- A key as it stands behind `@`. -/
structure KeyText where
  chars : List Char
  word : ∀ c ∈ chars, isWhitespace c = false ∧ c ≠ '"'

/-- A literal or a reference. -/
inductive MacroTerm where
  | number (x : NumberText)
  | str (s : QuotedText)
  | ref (k : KeyText)

/-- A macro: terms and sums. -/
inductive MacroExpr where
  | term (t : MacroTerm)
  | plus (l r : MacroExpr)

/-- `+` of the language: strings are put together, numbers of one kind are added. -/
def combine : Value → Value → Option Value
  | .str a, .str b => some (.str (a ++ b))
  | .int a, .int b =>
    let s := a.toInt + b.toInt
    if -2 ^ 63 ≤ s ∧ s < 2 ^ 63 then some (.int (.ofInt s)) else none
  | .float a, .float b => some (.float (a.add b))
  | _, _ => none

namespace MacroTerm

def text : MacroTerm → List Char
  | number x => x.text
  | str s => '"' :: (s.chars ++ ['"'])
  | ref k => '@' :: k.chars

def meaning (scope : List Field) : MacroTerm → Option Value
  | number x => some x.value
  | str s => some (.str (String.ofList s.chars))
  | ref k => lookupKey scope k.chars

end MacroTerm

namespace MacroExpr

/-- The expression as it is written behind `!`. -/
def text : MacroExpr → List Char
  | term t => t.text
  | plus l r => sumText l.text r.text

/-- The value of the expression, if it has one. -/
def meaning (scope : List Field) : MacroExpr → Option Value
  | term t => t.meaning scope
  | plus l r => do combine (← l.meaning scope) (← r.meaning scope)

/-- What the compiler makes of the expression. -/
def evaluated (scope : List Field) (e : MacroExpr) : Res Value := resolveMacro scope (.expr (String.ofList e.text))

def terms : MacroExpr → List MacroTerm
  | term t => [t]
  | plus l r => l.terms ++ r.terms

end MacroExpr

/-- What the language makes of two results. -/
def combined : Res Value → Res Value → Option Value
  | .ok a, .ok b => combine a b
  | _, _ => none

/-- A literal and a reference evaluate to what they stand for, a sum to the combination of its sides, and so
for the sides. -/
def MacroExpr.Follows (scope : List Field) : MacroExpr → Prop
  | term t => Gives ((term t).evaluated scope) (t.meaning scope)
  | plus l r => l.Follows scope ∧ r.Follows scope ∧
      Gives ((plus l r).evaluated scope) (combined (l.evaluated scope) (r.evaluated scope))

/-! ## Rows of terms -/

/-- The text of a row of terms. -/
def rowText : List MacroTerm → List Char
  | [] => []
  | [t] => t.text
  | t :: t' :: rest => sumText t.text (rowText (t' :: rest))

/-- The sum of a row of terms, from the right. -/
def rightSum (scope : List Field) : List MacroTerm → Option Value
  | [] => none
  | [t] => t.meaning scope
  | t :: t' :: rest => do combine (← t.meaning scope) (← rightSum scope (t' :: rest))

/-- Each term that others follow is a number, or a string without a ` + ` in it while the row does not end in a
string. -/
def Apart : List MacroTerm → Prop
  | [] => True
  | [_] => True
  | t :: t' :: rest => ((∃ x, t = .number x) ∨
      ∃ s, t = .str s ∧ splitPlus s.chars = none ∧ ∀ q, (t' :: rest).getLast? ≠ some (.str q)) ∧ Apart (t' :: rest)

namespace MacroExpr

/-- Neither the text of the expression nor of a part of it is mistaken. -/
def Readable : MacroExpr → Prop
  | term _ => True
  | plus l r => l.Readable ∧ r.Readable ∧ Apart (plus l r).terms

/-- The expression and its parts may be added from the right. -/
def Regroups : MacroExpr → Prop
  | term _ => True
  | plus l r => l.Regroups ∧ r.Regroups ∧ ∀ scope, (plus l r).meaning scope = rightSum scope (plus l r).terms

end MacroExpr

/-! ## Values -/

/-- The value is a string. -/
def Value.IsStr (v : Value) : Prop := ∃ s, v = .str s

theorem numberValue_not_str {l : List Char} {v : Value} (h : numberValue l = some v) : ¬ v.IsStr := by
  rintro ⟨s, rfl⟩
  unfold numberValue at h
  split at h
  · cases h
  · obtain ⟨f, -, hf⟩ := Option.map_eq_some_iff.mp h
    cases hf

theorem addValues_gives (expr : List Char) (a b : Value) : Gives (addValues expr a b) (combine a b) := by
  cases a with
  | int m =>
    cases b with
    | int n =>
      unfold addValues combine
      dsimp only
      split
      · rfl
      · exact ⟨_, rfl⟩
    | _ => exact ⟨_, rfl⟩
  | str s => cases b <;> first | rfl | exact ⟨_, rfl⟩
  | float x => cases b <;> first | rfl | exact ⟨_, rfl⟩
  | _ => exact ⟨_, rfl⟩

theorem Gives.sum {expr : List Char} {x y : Res Value} {a b : Option Value} (hx : Gives x a) (hy : Gives y b) :
    Gives (x >>= fun u => y >>= fun v => addValues expr u v) (do combine (← a) (← b)) := by
  cases a with
  | none =>
    obtain ⟨e, rfl⟩ := hx
    exact ⟨e, rfl⟩
  | some u =>
    obtain rfl : x = .ok u := hx
    cases b with
    | none =>
      obtain ⟨e, rfl⟩ := hy
      exact ⟨e, rfl⟩
    | some v =>
      obtain rfl : y = .ok v := hy
      exact addValues_gives expr u v

theorem Gives.combined {x y : Res Value} {a b : Option Value} (hx : Gives x a) (hy : Gives y b) :
    combined x y = (do combine (← a) (← b)) := by
  cases a with
  | none =>
    obtain ⟨e, rfl⟩ := hx
    rfl
  | some u =>
    obtain rfl : x = .ok u := hx
    cases b with
    | none =>
      obtain ⟨e, rfl⟩ := hy
      rfl
    | some v =>
      obtain rfl : y = .ok v := hy
      rfl

theorem combine_kinds {a b c : Value} (h : combine a b = some c) : (a.IsStr ↔ c.IsStr) ∧ (b.IsStr ↔ c.IsStr) := by
  unfold combine at h
  split at h
  · cases h
    simp [Value.IsStr]
  · simp only at h
    split at h <;> cases h
    simp [Value.IsStr]
  · cases h
    simp [Value.IsStr]
  · cases h

theorem combine_eq_str {a b : Value} {s : String} (h : combine a b = some (.str s)) :
    ∃ x y, a = .str x ∧ b = .str y ∧ s = x ++ y := by
  obtain ⟨⟨x, rfl⟩, ⟨y, rfl⟩⟩ : a.IsStr ∧ b.IsStr :=
    ⟨(combine_kinds h).1.mpr ⟨s, rfl⟩, (combine_kinds h).2.mpr ⟨s, rfl⟩⟩
  cases h
  exact ⟨x, y, rfl, rfl, rfl⟩

theorem combine_both {a b : Option Value} {v : Value} : (do combine (← a) (← b)) = some v ↔
    ∃ x y, a = some x ∧ b = some y ∧ combine x y = some v := by
  cases a <;> cases b <;> simp

/-! ## Text -/

theorem sumText_assoc (a b c : List Char) : sumText (sumText a b) c = sumText a (sumText b c) := by
  unfold sumText
  simp only [List.append_assoc]

theorem sumText_length (a b : List Char) : (sumText a b).length = a.length + b.length + 3 := by
  unfold sumText
  simp only [List.length_append, List.length_cons, List.length_nil]
  omega

theorem getLast?_quoted (s : List Char) : ('"' :: (s ++ ['"'])).getLast? = some '"' := by
  rw [← List.cons_append, List.getLast?_concat]

theorem Trimmed.of_forall {l : List Char} (hne : l ≠ []) (h : ∀ c ∈ l, isWhitespace c = false) : Trimmed l := by
  refine ⟨⟨l.head hne, List.head?_eq_some_head hne, ?_⟩, ⟨l.getLast hne, List.getLast?_eq_some_getLast hne, ?_⟩⟩
  · exact h _ (List.head_mem hne)
  · exact h _ (List.getLast_mem hne)

theorem MacroTerm.text_trimmed (t : MacroTerm) : Trimmed t.text := by
  cases t with
  | number x =>
    exact .of_forall (numberValue_ne_nil x.reads) fun c hc => (numberValue_chars x.reads c hc).ne.1
  | str s => exact ⟨⟨'"', rfl, by decide⟩, ⟨'"', getLast?_quoted s.chars, by decide⟩⟩
  | ref k =>
    apply Trimmed.of_forall (List.cons_ne_nil _ _)
    intro c hc
    rcases List.mem_cons.mp hc with rfl | hc
    · decide
    · exact (k.word c hc).1

/-- A term that is written up to a quote is a string. -/
theorem MacroTerm.eq_str_of_quote {t : MacroTerm} (h : t.text.getLast? = some '"') : ∃ s, t = .str s := by
  cases t with
  | number x => exact absurd rfl (numberValue_chars x.reads '"' (List.mem_of_getLast? h)).ne.2.1
  | str s => exact ⟨s, rfl⟩
  | ref k =>
    rcases List.mem_cons.mp (List.mem_of_getLast? h) with h | h
    · cases h
    · exact absurd rfl (k.word '"' h).2

theorem rowText_cons (t : MacroTerm) {ts : List MacroTerm} (h : ts ≠ []) : rowText (t :: ts) = sumText t.text (rowText ts) := by
  cases ts with
  | nil => exact absurd rfl h
  | cons t' ts => rfl

theorem rowText_append : ∀ {ts us : List MacroTerm}, ts ≠ [] → us ≠ [] → rowText (ts ++ us) = sumText (rowText ts) (rowText us)
  | [], _, h, _ => absurd rfl h
  | [t], us, _, h => rowText_cons t h
  | t :: t' :: ts, us, _, h => by
    have ih := rowText_append (List.cons_ne_nil t' ts) h
    have hne : t' :: ts ++ us ≠ [] := List.append_ne_nil_of_left_ne_nil (List.cons_ne_nil t' ts) us
    rw [List.cons_append, rowText_cons t hne, ih, rowText_cons t (List.cons_ne_nil t' ts), sumText_assoc]

theorem MacroExpr.terms_ne_nil (e : MacroExpr) : e.terms ≠ [] := by
  induction e with
  | term t => exact List.cons_ne_nil t []
  | plus l r hl _ => exact List.append_ne_nil_of_left_ne_nil hl r.terms

theorem MacroExpr.text_eq (e : MacroExpr) : e.text = rowText e.terms := by
  induction e with
  | term t => rfl
  | plus l r hl hr =>
    unfold text terms
    rw [rowText_append l.terms_ne_nil r.terms_ne_nil, hl, hr]

theorem rowText_trimmed : ∀ {ts : List MacroTerm}, ts ≠ [] → Trimmed (rowText ts)
  | [], h => absurd rfl h
  | [t], _ => t.text_trimmed
  | t :: t' :: ts, _ => t.text_trimmed.sum (rowText_trimmed (List.cons_ne_nil t' ts))

theorem MacroExpr.text_trimmed (e : MacroExpr) : Trimmed e.text := by
  rw [text_eq]
  exact rowText_trimmed e.terms_ne_nil

/-- A row that is written up to a quote ends in a string. -/
theorem rowText_quote : ∀ {ts : List MacroTerm}, (rowText ts).getLast? = some '"' → ∃ s, ts.getLast? = some (.str s)
  | [], h => by cases h
  | [t], h => by
    obtain ⟨s, rfl⟩ := t.eq_str_of_quote h
    exact ⟨s, rfl⟩
  | t :: t' :: ts, h => by
    have hrest : (rowText (t' :: ts)).getLast? = some '"' := by
      rwa [rowText, sumText_getLast? _ (rowText_trimmed (List.cons_ne_nil t' ts))] at h
    obtain ⟨s, hs⟩ := rowText_quote hrest
    exact ⟨s, hs⟩

theorem rowText_getLast? : ∀ {ts : List MacroTerm} {s : QuotedText}, ts.getLast? = some (.str s) →
    (rowText ts).getLast? = some '"'
  | [], _, h => by cases h
  | [t], s, h => by
    cases h
    exact getLast?_quoted s.chars
  | t :: t' :: ts, s, h => by
    rw [rowText, sumText_getLast? _ (rowText_trimmed (List.cons_ne_nil t' ts))]
    exact rowText_getLast? h

/-- A row of more than one term that opens and ends in a string is written as one string. -/
theorem rowText_between {s t : QuotedText} {ts : List MacroTerm} (ht : ts.getLast? = some (.str t)) :
    ∃ m : List Char, rowText (.str s :: ts) = '"' :: (m ++ ['"']) := by
  have hne : ts ≠ [] := by
    rintro rfl
    cases ht
  have hlast : (rowText (.str s :: ts)).getLast? = some '"' :=
    rowText_getLast? (s := t) (by rw [List.getLast?_cons, ht]; rfl)
  rw [rowText_cons _ hne] at hlast ⊢
  have htext : sumText (MacroTerm.str s).text (rowText ts) = '"' :: (s.chars ++ '"' :: sumText [] (rowText ts)) := by
    unfold MacroTerm.text sumText
    simp
  rw [htext] at hlast ⊢
  rcases List.eq_nil_or_concat' (s.chars ++ '"' :: sumText [] (rowText ts)) with h | ⟨m, c, h⟩
  · simp at h
  · rw [h, ← List.cons_append, List.getLast?_concat] at hlast
    exact ⟨m, by rw [h, Option.some.inj hlast]⟩

/-! ## Evaluation of a row -/

theorem MacroExpr.evaluated_eq (scope : List Field) (e : MacroExpr) : e.evaluated scope = evalText scope e.text :=
  resolveMacro_ofList scope e.text

/-- An expression without the characters that end a macro reaches the evaluation as it is written. -/
theorem readToken_macro (u : CharClasses) {e : MacroExpr} (he : ∀ c ∈ e.text, macroChar c = true) {rest : List Char}
    (hrest : ∀ c ∈ rest.head?, macroChar c = false) :
    readToken u '!' (e.text ++ rest) = .ok (.expr (String.ofList e.text), rest) := by
  have hstop : rest.takeWhile macroChar = [] ∧ rest.dropWhile macroChar = rest := by
    cases rest with
    | nil => exact ⟨rfl, rfl⟩
    | cons c rest =>
      have hc := hrest c rfl
      exact ⟨List.takeWhile_cons_of_neg (by simp [hc]), List.dropWhile_cons_of_neg (by simp [hc])⟩
  show Outcome.ok (Token.expr (String.ofList (trim ((e.text ++ rest).takeWhile macroChar))),
    (e.text ++ rest).dropWhile macroChar) = _
  rw [List.takeWhile_append_of_pos he, List.dropWhile_append_of_pos he, hstop.1, hstop.2, List.append_nil,
    e.text_trimmed.trim_eq]

theorem evalText_term (scope : List Field) (t : MacroTerm) : Gives (evalText scope t.text) (t.meaning scope) := by
  cases t with
  | number x => exact evalText_number scope x.reads (MacroTerm.number x).text_trimmed
  | str s => exact evalText_quoted scope s.chars
  | ref k => exact evalText_ref scope (MacroTerm.ref k).text_trimmed

/-- A number is added to what the rest of the text evaluates to. -/
theorem evalText_number_sum (scope : List Field) (x : NumberText) {rest : List Char} {o : Option Value} (hrest : Trimmed rest)
    (h : Gives (evalText scope rest) o) :
    Gives (evalText scope (sumText x.text rest)) (do combine x.value (← o)) := by
  have hne := fun c hc => (numberValue_chars x.reads c hc).ne
  have ht : Trimmed x.text := (MacroTerm.number x).text_trimmed
  rw [evalText_sum scope ht hrest]
  · have hx := evalText_term scope (.number x)
    exact hx.sum h
  · intro hat
    exact (hne '@' (List.mem_of_head? hat)).2.2.1 rfl
  · intro hq
    exact (hne '"' (List.mem_of_head? hq.1)).2.1 rfl
  · apply splitPlus_word
    intro hb
    exact absurd (hne ' ' hb).1 (by decide)

theorem sumText_quoted (s : QuotedText) (rest : List Char) :
    sumText (MacroTerm.str s).text rest = '"' :: (s.chars ++ '"' :: sumText [] rest) := by
  unfold MacroTerm.text sumText
  simp

/-- A string without a ` + ` is put in front of what the rest of the text evaluates to. -/
theorem evalText_string_sum (scope : List Field) {s : QuotedText} (hs : splitPlus s.chars = none) {rest : List Char}
    {o : Option Value} (hrest : Trimmed rest) (hq : rest.getLast? ≠ some '"') (h : Gives (evalText scope rest) o) :
    Gives (evalText scope (sumText (MacroTerm.str s).text rest)) (do combine (.str (String.ofList s.chars)) (← o)) := by
  rw [evalText_sum scope (MacroTerm.str s).text_trimmed hrest]
  · have hstr := evalText_term scope (.str s)
    exact hstr.sum h
  · simp [MacroTerm.text]
  · exact fun h => hq h.2
  · rw [sumText_quoted, splitPlus_cons_of_ne (by decide), splitPlus_string rest hs]
    rfl

/-- A string with a ` + ` in it is torn apart there. -/
theorem evalText_torn (scope : List Field) {s : QuotedText} (hs : splitPlus s.chars ≠ none) {rest : List Char}
    (hrest : Trimmed rest) (hq : rest.getLast? ≠ some '"') (v : Value) :
    evalText scope (sumText (MacroTerm.str s).text rest) ≠ .ok v := by
  intro h
  obtain ⟨⟨left, right⟩, hsplit⟩ := Option.ne_none_iff_exists'.mp hs
  have hsum : splitPlus (sumText (MacroTerm.str s).text rest) = some ('"' :: left, right ++ '"' :: sumText [] rest) := by
    rw [sumText_quoted, splitPlus_cons_of_ne (by decide), splitPlus_append _ hsplit]
    rfl
  have hnum : numberValue (sumText (MacroTerm.str s).text rest) = none := by
    rw [sumText_quoted]
    exact numberValue_of_mem List.mem_cons_self fun h => absurd rfl h.ne.2.1
  have ht := (MacroTerm.str s).text_trimmed
  rw [evalText, evalMacro_succ scope _ (ht.sum hrest).trim_eq, if_neg, if_neg, hnum, hsum] at h
  · obtain ⟨a, ha, -⟩ := bind_eq_ok.mp h
    obtain ⟨m, hm, hsub⟩ := trim_cons (c := '"') (by decide) left
    rw [hm] at ha
    refine evalMacro_open scope _ (fun hmem => s.unquoted ?_) a ha
    rw [splitPlus_eq hsplit]
    exact List.mem_append_left _ (hsub hmem)
  · rw [sumText_getLast? _ hrest]
    exact fun h => hq h.2
  · rw [sumText_quoted]
    simp
  · rw [sumText_quoted]
    simp

/-- A row that is kept apart is added from the right. -/
theorem Apart.gives (scope : List Field) : ∀ {ts : List MacroTerm}, ts ≠ [] → Apart ts →
    Gives (evalText scope (rowText ts)) (rightSum scope ts)
  | [], h, _ => absurd rfl h
  | [t], _, _ => evalText_term scope t
  | t :: t' :: ts, _, h => by
    have hne := List.cons_ne_nil t' ts
    have ih := Apart.gives scope hne h.2
    unfold rowText rightSum
    rcases h.1 with ⟨x, rfl⟩ | ⟨s, rfl, hs, hno⟩
    · exact evalText_number_sum scope x (rowText_trimmed hne) ih
    · apply evalText_string_sum scope hs (rowText_trimmed hne) ?_ ih
      intro hq
      obtain ⟨q, hlast⟩ := rowText_quote hq
      exact hno q hlast

/-- The scope with one key. -/
abbrev only (key : List Char) (v : Value) : List Field := [.mk (String.ofList key) v]

theorem lookupKey_only (key : List Char) (v : Value) : lookupKey (only key v) key = some v := by
  simp [lookupKey, Field.key, Field.value]

theorem lookupKey_only_ne {key key' : List Char} (h : key ≠ key') (v : Value) : lookupKey (only key v) key' = none := by
  simp [lookupKey, Field.key, String.ofList_inj, h]

/-- The terms of a sum have values of one kind. -/
theorem rightSum_kinds {scope : List Field} : ∀ {ts : List MacroTerm} {v : Value}, rightSum scope ts = some v →
    ∀ t ∈ ts, ∃ w, t.meaning scope = some w ∧ (w.IsStr ↔ v.IsStr)
  | [], v, h, _, _ => by cases h
  | [t], v, h, u, hu => by
    obtain rfl := List.mem_singleton.mp hu
    exact ⟨v, h, Iff.rfl⟩
  | t :: t' :: ts, v, h, u, hu => by
    obtain ⟨x, y, hx, hy, hxy⟩ := combine_both.mp h
    obtain ⟨hxk, hyk⟩ := combine_kinds hxy
    rcases List.mem_cons.mp hu with rfl | hu
    · exact ⟨x, hx, hxk⟩
    · obtain ⟨w, hw, hk⟩ := rightSum_kinds hy u hu
      exact ⟨w, hw, hk.trans hyk⟩

/-- Of a row that ends in a reference only the reference looks at the scope. -/
theorem Apart.rightSum_only {k : KeyText} {scope : List Field} : ∀ {ts : List MacroTerm} {w : Value}, Apart ts →
    ts.getLast? = some (.ref k) → rightSum scope ts = some w → ∃ v, rightSum (only k.chars v) ts = some w
  | [], _, _, hk, _ => by cases hk
  | [t], w, _, hk, h => by
    cases hk
    exact ⟨w, lookupKey_only _ w⟩
  | t :: t' :: ts, w, ha, hk, h => by
    obtain ⟨x, y, hx, hy, hxy⟩ := combine_both.mp h
    obtain ⟨v, hv⟩ := Apart.rightSum_only ha.2 hk hy
    refine ⟨v, combine_both.mpr ⟨x, y, ?_, hv, hxy⟩⟩
    rcases ha.1 with ⟨n, rfl⟩ | ⟨s, rfl, -, -⟩
    · exact hx
    · exact hx

/-- A reference that more text follows: the key is all of it. -/
theorem evalText_through {k : KeyText} {rest : List Char} (hrest : Trimmed rest) {v : Value} : ∀ {ts : List MacroTerm} {w : Value},
    Apart ts → ts.getLast? = some (.ref k) → (rest.getLast? = some '"' → ∀ s, ts.head? ≠ some (.str s)) →
    rightSum (only k.chars v) ts = some w → evalText (only (sumText k.chars rest) v) (sumText (rowText ts) rest) = .ok w
  | [], _, _, hk, _, _ => by cases hk
  | [t], w, _, hk, _, h => by
    cases hk
    obtain rfl : v = w := Option.some.inj ((lookupKey_only k.chars v).symm.trans h)
    have hat : sumText (MacroTerm.ref k).text rest = '@' :: sumText k.chars rest := rfl
    have ht := (MacroTerm.ref k).text_trimmed.sum hrest
    show evalText _ (sumText (MacroTerm.ref k).text rest) = .ok v
    rw [hat] at ht ⊢
    have hg := evalText_ref (only (sumText k.chars rest) v) ht
    rwa [lookupKey_only] at hg
  | t :: t' :: ts, w, ha, hk, hq, h => by
    obtain ⟨x, y, hx, hy, hxy⟩ := combine_both.mp h
    have ht := (rowText_trimmed (List.cons_ne_nil t' ts)).sum hrest
    rw [rowText, sumText_assoc]
    rcases ha.1 with ⟨n, rfl⟩ | ⟨s, rfl, hs, -⟩
    · cases hx
      have ih := evalText_through hrest ha.2 hk (fun _ s hs => ?_) hy
      · have hg := evalText_number_sum (o := some y) (only (sumText k.chars rest) v) n ht ih
        rwa [Option.bind_eq_bind, Option.bind_some, hxy] at hg
      · -- a number is not added to a string
        obtain ⟨u, hu, hkind⟩ := rightSum_kinds hy t' List.mem_cons_self
        obtain rfl : t' = .str s := Option.some.inj hs
        cases hu
        obtain ⟨hn, hyk⟩ := combine_kinds hxy
        exact numberValue_not_str n.reads (hn.mpr (hyk.mp (hkind.mp ⟨_, rfl⟩)))
    · cases hx
      have hq' : rest.getLast? ≠ some '"' := fun hq' => hq hq' s rfl
      have ih := evalText_through hrest ha.2 hk (fun h => absurd h hq') hy
      have hg := evalText_string_sum (o := some y) (only (sumText k.chars rest) v) hs ht
        (by rwa [sumText_getLast? _ hrest]) ih
      rwa [Option.bind_eq_bind, Option.bind_some, hxy] at hg

theorem apart_numbers : ∀ {ts us : List MacroTerm}, (∀ t ∈ ts, ∃ x, t = .number x) → us ≠ [] → Apart us → Apart (ts ++ us)
  | [], _, _, _, h => h
  | [t], _ :: _, hts, _, h => ⟨.inl (hts t List.mem_cons_self), h⟩
  | t :: _ :: _, _, hts, hne, h =>
    ⟨.inl (hts t List.mem_cons_self), apart_numbers (fun u hu => hts u (List.mem_cons_of_mem t hu)) hne h⟩

/-- Strings are not kept apart. -/
theorem Apart.single : ∀ {ts : List MacroTerm}, Apart ts → ts ≠ [] → (∀ t ∈ ts, ∃ s, t = .str s) → ∃ s, ts = [.str s]
  | [], _, hne, _ => absurd rfl hne
  | [t], _, _, hall => by
    obtain ⟨s, rfl⟩ := hall t List.mem_cons_self
    exact ⟨s, rfl⟩
  | t :: t' :: ts, h, _, hall => by
    exfalso
    obtain ⟨q, hq⟩ := hall _ (List.mem_cons_of_mem t (List.getLast_mem (List.cons_ne_nil t' ts)))
    obtain ⟨s, rfl⟩ := hall t List.mem_cons_self
    rcases h.1 with ⟨x, hx⟩ | ⟨s', -, -, hno⟩
    · cases hx
    · exact hno q (by rw [List.getLast?_eq_some_getLast (List.cons_ne_nil t' ts), hq])

/-- The terms in front of the last one are literals. -/
theorem Apart.literal : ∀ {ts : List MacroTerm}, Apart ts → ∀ t ∈ ts, ∀ k, t = .ref k → ts.getLast? = some (.ref k)
  | [], _, _, ht, _, _ => by cases ht
  | [t], _, u, hu, k, hk => by
    rw [← hk, List.mem_singleton.mp hu]
    rfl
  | t :: t' :: ts, h, u, hu, k, hk => by
    rcases List.mem_cons.mp hu with rfl | hu
    · rcases h.1 with ⟨x, hx⟩ | ⟨s, hs, -⟩
      · cases hx.symm.trans hk
      · cases hs.symm.trans hk
    · exact h.2.literal u hu k hk

/-! ## Expressions that are evaluated as they are built -/

namespace MacroExpr

theorem meaning_plus {scope : List Field} {l r : MacroExpr} {v : Value} : (plus l r).meaning scope = some v ↔
    ∃ a b, l.meaning scope = some a ∧ r.meaning scope = some b ∧ combine a b = some v := combine_both

theorem Readable.apart {e : MacroExpr} (h : e.Readable) : Apart e.terms := by
  cases e with
  | term t => trivial
  | plus l r => exact h.2.2

theorem Regroups.meaning_eq {e : MacroExpr} (h : e.Regroups) (scope : List Field) :
    e.meaning scope = rightSum scope e.terms := by
  cases e with
  | term t => rfl
  | plus l r => exact h.2.2 scope

theorem Readable.gives {e : MacroExpr} (h : e.Readable) (scope : List Field) :
    Gives (evalText scope e.text) (rightSum scope e.terms) := by
  rw [text_eq]
  exact h.apart.gives scope e.terms_ne_nil

theorem Readable.follows {e : MacroExpr} (h : e.Readable) (hr : e.Regroups) (scope : List Field) : e.Follows scope := by
  have hgives : ∀ {d : MacroExpr}, d.Readable → d.Regroups → Gives (d.evaluated scope) (d.meaning scope) := by
    intro d hd hdr
    rw [evaluated_eq, hdr.meaning_eq]
    exact hd.gives scope
  induction e with
  | term t => exact hgives h hr
  | plus l r hl hr' =>
    refine ⟨hl h.1 hr.1, hr' h.2.1 hr.2.1, ?_⟩
    rw [(hgives h.1 hr.1).combined (hgives h.2.1 hr.2.1)]
    exact hgives h hr

theorem Follows.gives {scope : List Field} {e : MacroExpr} (h : e.Follows scope) :
    Gives (evalText scope e.text) (e.meaning scope) := by
  rw [← evaluated_eq]
  induction e with
  | term t => exact h
  | plus l r hl hr =>
    have hsum := h.2.2
    rwa [(hl h.1).combined (hr h.2.1)] at hsum

theorem Readable.regroups {e : MacroExpr} (h : e.Readable) (hf : ∀ scope, e.Follows scope) : e.Regroups := by
  induction e with
  | term t => trivial
  | plus l r hl hr =>
    refine ⟨hl h.1 fun scope => (hf scope).1, hr h.2.1 fun scope => (hf scope).2.1, fun scope => ?_⟩
    exact (hf scope).gives.unique (h.gives scope)

/-- Without a scope the text of an expression that is a string is longer than the string. -/
theorem meaning_length {e : MacroExpr} {v : String} (h : e.meaning [] = some (.str v)) : v.length + 2 ≤ e.text.length := by
  induction e generalizing v with
  | term t =>
    cases t with
    | number x => exact absurd ⟨v, Option.some.inj h⟩ (numberValue_not_str x.reads)
    | str s =>
      cases h
      simp [text, MacroTerm.text]
    | ref k => cases h
  | plus l r hl hr =>
    obtain ⟨a, b, ha, hb, hab⟩ := meaning_plus.mp h
    obtain ⟨x, y, rfl, rfl, rfl⟩ := combine_eq_str hab
    have := hl ha
    have := hr hb
    unfold text
    rw [sumText_length, String.length_append]
    omega

/-- An expression that is evaluated as it is built is not written as one string. -/
theorem not_between {l r : MacroExpr} (hf : (plus l r).Follows []) {m : List Char} : (plus l r).text ≠ '"' :: (m ++ ['"']) := by
  intro hm
  have hg := hf.gives
  rw [hm] at hg
  obtain ⟨a, b, ha, hb, hab⟩ := meaning_plus.mp (hg.of_ok (evalText_quoted [] m))
  obtain ⟨x, y, rfl, rfl, hxy⟩ := combine_eq_str hab
  have hx := meaning_length ha
  have hy := meaning_length hb
  have hlen := congrArg List.length hm
  have hcat := congrArg String.length hxy
  unfold text at hlen
  rw [sumText_length] at hlen
  simp only [String.length_ofList, String.length_append, List.length_cons, List.length_append, List.length_nil] at hlen hcat
  omega

/-- A sum that has a value and is evaluated as it is built has no reference at the end of its left side. -/
theorem left_not_ref {l r : MacroExpr} (hl : l.Readable) (hlr : l.Regroups) {scope : List Field} {a : Value}
    (ha : l.meaning scope = some a) (hf : ∀ scope, (plus l r).Follows scope) (k : KeyText) :
    l.terms.getLast? ≠ some (.ref k) := by
  intro hk
  rw [hlr.meaning_eq] at ha
  obtain ⟨v, hv⟩ := hl.apart.rightSum_only hk ha
  have hthrough := evalText_through r.text_trimmed hl.apart hk (fun hq s hs => ?_) hv
  · have hg := (hf (only (sumText k.chars r.text) v)).gives
    rw [text, text_eq l] at hg
    obtain ⟨x, y, hx, -, -⟩ := meaning_plus.mp (hg.of_ok hthrough)
    rw [hlr.meaning_eq] at hx
    obtain ⟨w, hw, -⟩ := rightSum_kinds hx (.ref k) (List.mem_of_getLast? hk)
    have hne : sumText k.chars r.text ≠ k.chars := fun h => by
      have := congrArg List.length h
      rw [sumText_length] at this
      omega
    cases (lookupKey_only_ne hne v).symm.trans hw
  · -- the whole text would stand between two quotes
    rw [text_eq] at hq
    obtain ⟨t, ht⟩ := rowText_quote hq
    obtain ⟨ts, hts⟩ := List.head?_eq_some_iff.mp hs
    have hlast : (ts ++ r.terms).getLast? = some (.str t) := by
      rw [List.getLast?_append, ht]
      rfl
    obtain ⟨m, hm⟩ := rowText_between (s := s) hlast
    apply not_between (hf []) (m := m)
    rw [text_eq, terms, hts]
    exact hm

theorem readable_of_follows {e : MacroExpr} (hv : ∃ scope v, e.meaning scope = some v) (hf : ∀ scope, e.Follows scope) :
    e.Readable := by
  induction e with
  | term t => trivial
  | plus l r hl hr =>
    obtain ⟨scope, v, hv⟩ := hv
    obtain ⟨a, b, ha, hb, hab⟩ := meaning_plus.mp hv
    have hlc := hl ⟨scope, a, ha⟩ fun scope => (hf scope).1
    have hrc := hr ⟨scope, b, hb⟩ fun scope => (hf scope).2.1
    have hlr := hlc.regroups fun scope => (hf scope).1
    have hkinds := rightSum_kinds ((hlr.meaning_eq scope).symm.trans ha)
    have hnoref : ∀ t ∈ l.terms, ∀ k, t ≠ .ref k := fun t ht k htk =>
      left_not_ref hlc hlr ha hf k (hlc.apart.literal t ht k htk)
    refine ⟨hlc, hrc, ?_⟩
    unfold terms
    by_cases hstr : a.IsStr
    · -- the left side is strings
      have hall : ∀ t ∈ l.terms, ∃ s, t = .str s := by
        intro t ht
        obtain ⟨w, hw, hk⟩ := hkinds t ht
        cases t with
        | number x =>
          cases hw
          exact absurd (hk.mpr hstr) (numberValue_not_str x.reads)
        | str s => exact ⟨s, rfl⟩
        | ref k => exact absurd rfl (hnoref _ ht k)
      obtain ⟨s, hs⟩ := hlc.apart.single l.terms_ne_nil hall
      have hno : ∀ q, r.terms.getLast? ≠ some (.str q) := fun q hq => by
        obtain ⟨m, hm⟩ := rowText_between (s := s) hq
        apply not_between (hf []) (m := m)
        rw [text_eq, terms, hs]
        exact hm
      have hquote : r.text.getLast? ≠ some '"' := fun hq => by
        rw [text_eq] at hq
        obtain ⟨q, hq⟩ := rowText_quote hq
        exact hno q hq
      have hwhole : splitPlus s.chars = none := by
        by_contra htorn
        have hg := (hf scope).gives
        rw [hv, text, text_eq l, hs] at hg
        exact evalText_torn scope htorn r.text_trimmed hquote v hg
      rw [hs]
      have hr := r.terms_ne_nil
      match r.terms, hr, hno, hrc.apart with
      | [], hr, _, _ => exact absurd rfl hr
      | t :: ts, _, hno, hap => exact ⟨.inr ⟨s, rfl, hwhole, hno⟩, hap⟩
    · apply apart_numbers ?_ r.terms_ne_nil hrc.apart
      intro t ht
      obtain ⟨w, hw, hk⟩ := hkinds t ht
      cases t with
      | number x => exact ⟨x, rfl⟩
      | str s =>
        cases hw
        exact absurd (hk.mp ⟨_, rfl⟩) hstr
      | ref k => exact absurd rfl (hnoref _ ht k)

end MacroExpr

open MacroExpr

/-- An expression whose text is not mistaken and that may be added from the right is evaluated as it is built, in every
scope; and so it is the other way round where the text is not mistaken or the expression has a value in some scope. -/
theorem macro_follows_iff (e : MacroExpr) : (e.Readable ∧ e.Regroups → ∀ scope, e.Follows scope) ∧
    ((e.Readable ∨ ∃ scope v, e.meaning scope = some v) → (∀ scope, e.Follows scope) → e.Readable ∧ e.Regroups) := by
  refine ⟨fun h scope => h.1.follows h.2 scope, fun h hf => ?_⟩
  have hread : e.Readable := by
    rcases h with h | h
    · exact h
    · exact readable_of_follows h hf
  exact ⟨hread, hread.regroups hf⟩

/-- `"v" + @k`. -/
def prefixedKey : MacroExpr := .plus (.term (.str ⟨['v'], by decide⟩)) (.term (.ref ⟨['k'], by simp [isWhitespace]⟩))

theorem macro_follows_prefixed : (prefixedKey.Readable ∧ prefixedKey.Regroups) ∧ ∀ scope, prefixedKey.Follows scope := by
  have hread : prefixedKey.Readable := ⟨trivial, trivial, .inr ⟨_, rfl, rfl, fun q hq => by cases hq⟩, trivial⟩
  have hfollows := (macro_follows_iff prefixedKey).1 ⟨hread, trivial, trivial, fun _ => rfl⟩
  have hvalue : prefixedKey.meaning (only ['k'] (.str "c")) = some (.str (String.ofList ['v'] ++ "c")) :=
    meaning_plus.mpr ⟨_, _, rfl, lookupKey_only ['k'] (.str "c"), rfl⟩
  exact ⟨(macro_follows_iff prefixedKey).2 (.inr ⟨_, _, hvalue⟩) hfollows, hfollows⟩

/-- `"a" + "b"`. -/
def twoStrings : MacroExpr := .plus (.term (.str ⟨['a'], by decide⟩)) (.term (.str ⟨['b'], by decide⟩))

/-- `"a + b" + @k`. -/
def quotedPlus : MacroExpr :=
  .plus (.term (.str ⟨['a', ' ', '+', ' ', 'b'], by decide⟩)) (.term (.ref ⟨['k'], by simp [isWhitespace]⟩))

/-- `"a" + "b"` becomes the string `a" + "b`, and `"a + b" + @k` nothing, although the sums have values. -/
theorem macro_not_followed :
    (twoStrings.meaning [] = some (.str (String.ofList ['a'] ++ String.ofList ['b'])) ∧
      twoStrings.evaluated [] = .ok (.str (String.ofList ['a', '"', ' ', '+', ' ', '"', 'b'])) ∧ ¬ twoStrings.Follows []) ∧
    quotedPlus.meaning (only ['k'] (.str "c")) = some (.str (String.ofList ['a', ' ', '+', ' ', 'b'] ++ "c")) ∧
      ¬ quotedPlus.Follows (only ['k'] (.str "c")) := by
  have hvalue : quotedPlus.meaning (only ['k'] (.str "c")) = some (.str (String.ofList ['a', ' ', '+', ' ', 'b'] ++ "c")) :=
    meaning_plus.mpr ⟨_, _, rfl, lookupKey_only ['k'] (.str "c"), rfl⟩
  have hone : evalText [] twoStrings.text = .ok (.str (String.ofList ['a', '"', ' ', '+', ' ', '"', 'b'])) :=
    evalText_quoted [] ['a', '"', ' ', '+', ' ', '"', 'b']
  refine ⟨⟨rfl, (twoStrings.evaluated_eq []).trans hone, fun h => ?_⟩, hvalue, fun h => ?_⟩
  · have hmeaning := Value.str.inj (Option.some.inj (h.gives.of_ok hone))
    revert hmeaning
    decide +kernel
  · have hg := h.gives
    rw [hvalue] at hg
    exact evalText_torn _ (by decide) (MacroTerm.ref ⟨['k'], by simp [isWhitespace]⟩).text_trimmed (by simp [MacroTerm.text]) _ hg

end Nyxis
