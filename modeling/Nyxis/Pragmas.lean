import Nyxis.Registry
import Nyxis.Spelled

/-!
# Pragmas — compiling a source text

Pragmas may stand in front of the fields of a source.  They choose the layout of the file and the size of its pages; the
fields behind them are compiled as `compileFields` does.

* `readPragmas_tokens`, `pragmas_of_read`: the pragmas are read one after the other, and the last one of a kind counts.
* `parse_source_iff`: which texts are accepted as the source of which fields.
* `compile_source_text`: a source compiles to the file of its fields.
-/

namespace Nyxis

open Lib Lib.Outcome

/-! ## Reading pragmas -/

/-- `s.parse::<u32>().ok()`. -/
def parseU32 (l : List Char) : Option UInt32 :=
  let digits := match l with
    | '+' :: rest => rest
    | l => l
  if digits.isEmpty || !digits.all Char.isDigit then none
  else if digitsNat digits < 2 ^ 32 then some (.ofNat (digitsNat digits)) else none

/-- `Layout::parse_name`. -/
def Layout.parseName (s : String) : Option Layout :=
  if s = "row" then some .row
  else if s = "columnar" then some .columnar
  else if s = "pax" then some .pax
  else none

/-- `apply_pragma`. -/
def CompileOptions.applyPragma (opts : CompileOptions) (name value : String) : Res CompileOptions :=
  if name = "layout" then do
    let layout ← okOr (ofOption (Layout.parseName value)) (.parseError s!"unknown layout: {value}")
    .ok { opts with layout := layout }
  else if name = "page-size" then do
    let pageSize ← okOr (ofOption (parseU32 value.toList)) (.parseError s!"bad page-size: {value}")
    ensure (pageSize ≠ 0) (.parseError "page-size must be > 0")
    .ok { opts with pageSize := pageSize }
  else .err (.parseError s!"unknown pragma: @{name}")

/-- The value behind the name of a pragma. -/
def Token.pragmaValue : Token → Option String
  | .ident s => some s
  | .int n => some (String.ofList (decimal n.toInt))
  | _ => none

/-- The options that the pragmas in front set, and the tokens behind them. -/
def readPragmas : CompileOptions → List Token → Res (CompileOptions × List Token)
  | opts, .expr m :: rest =>
    match m.toList with
    | '@' :: name =>
      match rest with
      | [] => .err (.parseError s!"pragma @{String.ofList name} requires a value")
      | t :: rest =>
        match t.pragmaValue with
        | some value => do
          let opts ← opts.applyPragma (String.ofList name) value
          readPragmas opts rest
        | none => .err (.parseError s!"pragma @{String.ofList name} requires a value")
    | _ => .ok (opts, .expr m :: rest)
  | opts, tokens => .ok (opts, tokens)

section

variable (u : CharClasses) (debug : Token → String)

def parseFileWithPragmas (tokens : List Token) : Res (List Field × CompileOptions) := do
  let (opts, rest) ← readPragmas .default tokens
  let fields ← Parser.parseFile debug rest
  .ok (fields, opts)

/-- The front end of the compiler: the fields of a source, and the options of its pragmas. -/
def parseSource (source : List Char) : Res (List Field × CompileOptions) := do
  let tokens ← tokenize u source
  parseFileWithPragmas debug tokens

/-- `compile_source_with_opts`. -/
def compileSource (stack : ℕ) (source : List Char) (opts : CompileOptions) : Res Slice :=
  compileSourceWithOpts stack (parseSource u debug source) opts

end

/-! ## Written pragmas -/

inductive Pragma where
  | layout (l : Layout)
  | pageSize (n : Int64)
  deriving DecidableEq, Repr

def Layout.name : Layout → String
  | .row => "row"
  | .columnar => "columnar"
  | .pax => "pax"

namespace Pragma

/-- A page has a record, and its size is a `u32`. -/
def Valid : Pragma → Prop
  | .layout _ => True
  | .pageSize n => 0 < n.toInt ∧ n.toInt < 2 ^ 32

instance : ∀ pragma : Pragma, Decidable pragma.Valid
  | .layout _ => inferInstanceAs (Decidable True)
  | .pageSize n => inferInstanceAs (Decidable (0 < n.toInt ∧ n.toInt < 2 ^ 32))

def tokens : Pragma → List Token
  | .layout l => [.expr "@layout", .ident l.name]
  | .pageSize n => [.expr "@page-size", .int n]

/-- What a pragma sets. -/
def apply (opts : CompileOptions) : Pragma → CompileOptions
  | .layout l => { opts with layout := l }
  | .pageSize n => { opts with pageSize := .ofNat n.toInt.toNat }

end Pragma

theorem parseName_name (l : Layout) : Layout.parseName l.name = some l := by
  cases l <;> rfl

theorem parseU32_decimal {n : ℤ} (hpos : 0 ≤ n) (hsmall : n < 2 ^ 32) : parseU32 (decimal n) = some (.ofNat n.toNat) := by
  have hdigits := isDigit_of_mem_toDigits (n := n.natAbs)
  have hne : Nat.toDigits 10 n.natAbs ≠ [] := Nat.toDigits_ne_nil
  have habs : n.natAbs = n.toNat := by omega
  have hall : ((Nat.toDigits 10 n.natAbs).isEmpty || !(Nat.toDigits 10 n.natAbs).all Char.isDigit) = false := by
    rw [List.isEmpty_eq_false_iff.mpr hne, List.all_eq_true.mpr hdigits]
    rfl
  have htext : decimal n = Nat.toDigits 10 n.natAbs := if_neg (Int.not_lt.mpr hpos)
  rw [htext]
  unfold parseU32
  split
  · rename_i rest h
    rw [h] at hdigits
    exact absurd (hdigits '+' List.mem_cons_self) (by decide)
  · dsimp only
    rw [hall, digitsNat_toDigits, if_neg Bool.false_ne_true, if_pos (by omega), habs]

/-- One pragma is read. -/
theorem readPragmas_pragma {pragma : Pragma} (h : pragma.Valid) (opts : CompileOptions) (rest : List Token) :
    readPragmas opts (pragma.tokens ++ rest) = readPragmas (pragma.apply opts) rest := by
  cases pragma with
  | layout l =>
    show (opts.applyPragma "layout" l.name >>= fun opts => readPragmas opts rest) = _
    rw [CompileOptions.applyPragma, if_pos rfl, parseName_name]
    rfl
  | pageSize n =>
    obtain ⟨hpos, hsmall⟩ := h
    have hne : UInt32.ofNat n.toInt.toNat ≠ 0 := by
      rw [ne_eq, ← UInt32.toNat_inj, UInt32.toNat_ofNat', Nat.mod_eq_of_lt (by omega)]
      exact fun h => absurd h (show n.toInt.toNat ≠ 0 by omega)
    show (opts.applyPragma "page-size" (String.ofList (decimal n.toInt)) >>= fun opts => readPragmas opts rest) = _
    rw [CompileOptions.applyPragma, if_neg (by decide), if_pos rfl, String.toList_ofList, parseU32_decimal hpos.le hsmall,
      ofOption_some, okOr_ok, ok_bind, ensure_of hne, ok_bind, ok_bind]
    rfl

/-- The pragmas are read one after the other. -/
theorem readPragmas_tokens : ∀ {pragmas : List Pragma}, (∀ pragma ∈ pragmas, pragma.Valid) →
    ∀ (opts : CompileOptions) (rest : List Token), readPragmas opts (pragmas.flatMap Pragma.tokens ++ rest) =
      readPragmas (pragmas.foldl Pragma.apply opts) rest
  | [], _, _, _ => rfl
  | pragma :: pragmas, h, opts, rest => by
    rw [List.flatMap_cons, List.append_assoc, readPragmas_pragma (h pragma List.mem_cons_self),
      readPragmas_tokens fun q hq => h q (List.mem_cons_of_mem pragma hq), List.foldl_cons]

/-- No field starts with a pragma. -/
theorem readPragmas_fields {fields : List Field} {ts : List Token} (h : PrintsFile fields ts) (opts : CompileOptions) :
    readPragmas opts ts = .ok (opts, ts) := by
  cases h with
  | nil => rfl
  | eof rest => rfl
  | cons hf h =>
    cases hf
    rfl

/-! ## Pragmas that are read -/

theorem parseName_eq_some {s : String} {l : Layout} (h : Layout.parseName s = some l) : s = l.name := by
  rw [Layout.parseName] at h
  split at h
  · rename_i hs
    cases h
    exact hs
  · split at h
    · rename_i hs
      cases h
      exact hs
    · split at h
      · rename_i hs
        cases h
        exact hs
      · cases h

/-- A pragma that is applied. -/
theorem applyPragma_eq_ok {opts opts' : CompileOptions} {name value : String} (h : opts.applyPragma name value = .ok opts') :
    (name = "layout" ∧ ∃ l : Layout, value = l.name ∧ opts' = { opts with layout := l }) ∨
      (name = "page-size" ∧ ∃ n, parseU32 value.toList = some n ∧ n ≠ 0 ∧ opts' = { opts with pageSize := n }) := by
  rw [CompileOptions.applyPragma] at h
  by_cases hlayout : name = "layout"
  · rw [if_pos hlayout] at h
    obtain ⟨l, hl, h⟩ := bind_eq_ok.mp h
    cases h
    cases hparse : Layout.parseName value with
    | none =>
      rw [hparse] at hl
      cases hl
    | some l' =>
      rw [hparse] at hl
      cases hl
      exact .inl ⟨hlayout, l, parseName_eq_some hparse, rfl⟩
  · rw [if_neg hlayout] at h
    by_cases hsize : name = "page-size"
    · rw [if_pos hsize] at h
      obtain ⟨n, hn, h⟩ := bind_eq_ok.mp h
      obtain ⟨_, hne, h⟩ := bind_eq_ok.mp h
      cases h
      cases hparse : parseU32 value.toList with
      | none =>
        rw [hparse] at hn
        cases hn
      | some n' =>
        rw [hparse] at hn
        cases hn
        exact .inr ⟨hsize, n, rfl, ensure_eq_ok.mp hne, rfl⟩
    · rw [if_neg hsize] at h
      cases h

/-- No key is a number. -/
def NotNumbers (ts : List Token) : Prop := ∀ s, .ident s ∈ ts → parseU32 s.toList = none

theorem parseU32_ident {u : CharClasses} {c : Char} {text : List Char} (hc : u.alphabetic c = true ∨ c = '_') :
    parseU32 (c :: text) = none := by
  have hplus : c ≠ '+' := by
    rintro rfl
    rcases hc with hc | hc
    · rw [(u.ascii _ (by decide)).1] at hc
      cases hc
    · cases hc
  have hdigit : c.isDigit = false := by
    by_contra hd
    rw [Bool.not_eq_false] at hd
    obtain ⟨hlo, hhi⟩ := isDigit_lt hd
    rcases hc with hc | rfl
    · rw [(u.ascii c (by omega)).1] at hc
      have hval : c.val.toNat = c.toNat := rfl
      rcases Bool.or_eq_true_iff.mp hc with hc | hc
      · have : 65 ≤ c.val.toNat := (of_decide_eq_true hc : c.val ≥ 65 ∧ c.val ≤ 90).1
        omega
      · have : 97 ≤ c.val.toNat := of_decide_eq_true (Bool.and_eq_true_iff.mp hc).1
        omega
    · cases hd
  unfold parseU32
  split
  · rename_i rest heq
    cases heq
    exact absurd rfl hplus
  · simp [hdigit]

theorem Spelled.notNumbers {u : CharClasses} {ts : List Token} {l : List Char} (h : Spelled u ts l) : NotNumbers ts := by
  intro s hs
  obtain ⟨c, text, rfl, hc, -⟩ := h.ident s hs
  rw [String.toList_ofList, parseU32_ident hc]

theorem decimal_ne_name (n : ℤ) (l : Layout) : String.ofList (decimal n) ≠ l.name := by
  intro heq
  have hchars : decimal n = l.name.toList := by rw [← heq, String.toList_ofList]
  have hdigits : ∀ c ∈ decimal n, c = '-' ∨ c.isDigit = true := by
    intro c hc
    rw [decimal] at hc
    split at hc
    · exact (List.mem_cons.mp hc).imp id fun hc => isDigit_of_mem_toDigits c hc
    · exact .inr (isDigit_of_mem_toDigits c hc)
  rw [hchars] at hdigits
  cases l <;> exact absurd hdigits (by simp [Layout.name])

theorem decimal_parseU32 {n : Int64} {m : UInt32} (h : parseU32 (decimal n.toInt) = some m) (hne : m ≠ 0) :
    (0 < n.toInt ∧ n.toInt < 2 ^ 32) ∧ m = .ofNat n.toInt.toNat := by
  have hdigits := isDigit_of_mem_toDigits (n := n.toInt.natAbs)
  by_cases hneg : n.toInt < 0
  · rw [decimal, if_pos hneg, parseU32] at h
    · simp at h
    · intro rest heq
      cases heq
  · have hall : ((Nat.toDigits 10 n.toInt.natAbs).isEmpty || !(Nat.toDigits 10 n.toInt.natAbs).all Char.isDigit) = false := by
      rw [List.isEmpty_eq_false_iff.mpr Nat.toDigits_ne_nil, List.all_eq_true.mpr hdigits]
      rfl
    rw [decimal, if_neg hneg] at h
    unfold parseU32 at h
    split at h
    · rename_i rest heq
      rw [heq] at hdigits
      exact absurd (hdigits '+' List.mem_cons_self) (by decide)
    · dsimp only at h
      rw [hall, digitsNat_toDigits, if_neg Bool.false_ne_true] at h
      split at h
      · rename_i hfits
        cases h
        have habs : n.toInt.natAbs = n.toInt.toNat := by omega
        rw [habs] at hfits hne ⊢
        refine ⟨⟨?_, by omega⟩, rfl⟩
        by_contra hzero
        exact hne (by rw [show n.toInt.toNat = 0 by omega]; rfl)
      · cases h

/-- A pragma with its value. -/
theorem pragma_of_apply {m : String} {name : List Char} (hm : m.toList = '@' :: name) {t : Token} {value : String}
    (hvalue : t.pragmaValue = some value) (hnumber : ∀ s, t = .ident s → parseU32 s.toList = none) {opts opts' : CompileOptions}
    (h : opts.applyPragma (String.ofList name) value = .ok opts') :
    ∃ pragma : Pragma, pragma.Valid ∧ pragma.tokens = [.expr m, t] ∧ opts' = pragma.apply opts := by
  have hname : ∀ s : String, String.ofList name = s → m = String.ofList ('@' :: s.toList) := by
    rintro s rfl
    rw [String.toList_ofList, ← hm, String.ofList_toList]
  rcases applyPragma_eq_ok h with ⟨hlayout, l, rfl, rfl⟩ | ⟨hsize, n, hn, hne, rfl⟩
  · cases t with
    | ident s =>
      cases hvalue
      exact ⟨.layout l, trivial, by rw [hname _ hlayout]; rfl, rfl⟩
    | int n => exact absurd (Option.some.inj hvalue) (decimal_ne_name n.toInt l)
    | _ => cases hvalue
  · cases t with
    | ident s =>
      cases hvalue
      rw [hnumber _ rfl] at hn
      cases hn
    | int k =>
      cases hvalue
      rw [String.toList_ofList] at hn
      obtain ⟨hvalid, rfl⟩ := decimal_parseU32 hn hne
      exact ⟨.pageSize k, hvalid, by rw [hname _ hsize]; rfl, rfl⟩
    | _ => cases hvalue

/-- What is read as pragmas. -/
theorem pragmas_of_read {opts opts' : CompileOptions} {tokens rest : List Token} (hnumbers : NotNumbers tokens)
    (h : readPragmas opts tokens = .ok (opts', rest)) : ∃ pragmas : List Pragma, (∀ pragma ∈ pragmas, pragma.Valid) ∧
      tokens = pragmas.flatMap Pragma.tokens ++ rest ∧ opts' = pragmas.foldl Pragma.apply opts := by
  fun_induction readPragmas opts tokens with
  | case1 => cases h
  | case2 opts m name hm t tokens value hvalue ih =>
    obtain ⟨opts₁, happly, h⟩ := bind_eq_ok.mp h
    obtain ⟨pragma, hvalid, htokens, rfl⟩ := pragma_of_apply hm hvalue
      (fun s hs => hnumbers s (hs ▸ List.mem_cons_of_mem _ List.mem_cons_self)) happly
    obtain ⟨pragmas, hall, rfl, rfl⟩ := ih _ (fun s hs => hnumbers s (List.mem_cons_of_mem _ (List.mem_cons_of_mem _ hs))) h
    refine ⟨pragma :: pragmas, List.forall_mem_cons.mpr ⟨hvalid, hall⟩, ?_, rfl⟩
    rw [List.flatMap_cons, htokens]
    rfl
  | case3 => cases h
  | case4 =>
    cases h
    exact ⟨[], nofun, rfl, rfl⟩
  | case5 =>
    cases h
    exact ⟨[], nofun, rfl, rfl⟩

/-! ## Source texts -/

/-- The text is a source: pragmas, and then fields. -/
def SourceText (u : CharClasses) (pragmas : List Pragma) (fields : List Field) (source : List Char) : Prop :=
  ∃ ts, PrintsFile fields (ts ++ [.eof]) ∧ Spelled u (pragmas.flatMap Pragma.tokens ++ ts) source

/-- The options of a file with these pragmas. -/
def fileOptions (pragmas : List Pragma) : CompileOptions := pragmas.foldl Pragma.apply .default

theorem eof_not_mem_pragmas (pragmas : List Pragma) : Token.eof ∉ pragmas.flatMap Pragma.tokens := by
  intro h
  obtain ⟨pragma, -, hmem⟩ := List.mem_flatMap.mp h
  cases pragma <;> simp [Pragma.tokens] at hmem

section

variable {u : CharClasses} {debug : Token → String} {source : List Char} {fields : List Field} {opts : CompileOptions}

/-- What is accepted is a source text. -/
theorem sourceText_of_parse (h : parseSource u debug source = .ok (fields, opts)) :
    ∃ pragmas : List Pragma, (∀ pragma ∈ pragmas, pragma.Valid) ∧ SourceText u pragmas fields source ∧
      FieldsUniform fields ∧ fieldsObjectDepth fields ≤ MAX_DEPTH ∧ opts = fileOptions pragmas := by
  obtain ⟨tokens, htokens, h⟩ := bind_eq_ok.mp h
  obtain ⟨⟨opts', rest⟩, hread, h⟩ := bind_eq_ok.mp h
  obtain ⟨fields', hparse, h⟩ := bind_eq_ok.mp h
  cases h
  obtain ⟨ts, rfl, hspelled⟩ := (tokenize_iff u).mp htokens
  have hnumbers : NotNumbers (ts ++ [.eof]) := by
    intro s hs
    rcases List.mem_append.mp hs with hs | hs
    · exact hspelled.notNumbers s hs
    · cases List.mem_singleton.mp hs
  obtain ⟨pragmas, hvalid, hsplit, rfl⟩ := pragmas_of_read hnumbers hread
  obtain ⟨hprints, huniform, hdepth⟩ := Parser.printed_of_parseFile debug hparse
  -- the end mark is behind the pragmas
  obtain ⟨ts', rfl⟩ : ∃ ts', rest = ts' ++ [.eof] := by
    rcases List.eq_nil_or_concat rest with rfl | ⟨ts', t, rfl⟩
    · rw [List.append_nil] at hsplit
      exact absurd (hsplit ▸ List.mem_append_right ts List.mem_cons_self) (eof_not_mem_pragmas pragmas)
    · rw [List.concat_eq_append, ← List.append_assoc] at hsplit
      obtain ⟨-, ht⟩ := List.append_inj' hsplit rfl
      cases ht
      exact ⟨ts', List.concat_eq_append ..⟩
  rw [← List.append_assoc] at hsplit
  rw [List.append_cancel_right hsplit] at hspelled
  exact ⟨pragmas, hvalid, ⟨ts', hprints, hspelled⟩, huniform, hdepth, rfl⟩

variable {pragmas : List Pragma} (hpragmas : ∀ pragma ∈ pragmas, pragma.Valid) (huniform : FieldsUniform fields)
  (hdepth : fieldsObjectDepth fields ≤ MAX_DEPTH) (hsource : SourceText u pragmas fields source)

include hpragmas huniform hdepth hsource

theorem parseSource_text : parseSource u debug source = .ok (fields, fileOptions pragmas) := by
  obtain ⟨ts, hprints, hspelled⟩ := hsource
  rw [parseSource, tokenize_spelled u hspelled, ok_bind, List.append_assoc, parseFileWithPragmas,
    readPragmas_tokens hpragmas, readPragmas_fields hprints, ok_bind]
  dsimp only
  rw [Parser.parseFile_limited debug hprints huniform, if_pos hdepth, ok_bind]
  rfl

/-- A source compiles to the file of its fields, with the options of its pragmas in front of the caller's. -/
theorem compile_source_text (stack : ℕ) (opts : CompileOptions) : compileSource u debug stack source opts =
    compileFields stack fields (opts.merge (fileOptions pragmas)) := by
  rw [compileSource, parseSource_text hpragmas huniform hdepth hsource]
  rfl

end

/-- A text is accepted as the source of some fields exactly where it is one, its lists are of one kind each and its objects
nest at most 64 deep. -/
theorem parse_source_iff (u : CharClasses) (debug : Token → String) (source : List Char) (fields : List Field)
    (opts : CompileOptions) : parseSource u debug source = .ok (fields, opts) ↔
      ∃ pragmas : List Pragma, (∀ pragma ∈ pragmas, pragma.Valid) ∧ SourceText u pragmas fields source ∧
        FieldsUniform fields ∧ fieldsObjectDepth fields ≤ MAX_DEPTH ∧ opts = fileOptions pragmas := by
  constructor
  · exact sourceText_of_parse
  · rintro ⟨pragmas, hpragmas, hsource, huniform, hdepth, rfl⟩
    exact parseSource_text hpragmas huniform hdepth hsource

end Nyxis
