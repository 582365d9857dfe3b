import Nyxis.ImportAbsence

/-!
# ImportValues — values of imported JSON and CSV

The first pass takes each text for the first type that it fits, the second writes it under the sigil that
the whole column resolved to.

* `resolveSigil_text`: the sigil of a column and the types of its texts.
* `Denotes`, `import_keeps_values`: what a text stands for under a sigil is what is written.
-/

namespace Nyxis

open Lib Lib.Outcome

/-! ## The types of texts -/

/-- The type that a text is taken for. -/
def textSigil (raw : String) : UInt8 :=
  if (parseI64 raw.toList).isSome then SIGIL_INT
  else if (parseF64 raw.toList).isSome then SIGIL_FLOAT
  else if raw = "true" ∨ raw = "false" then SIGIL_BOOL
  else if isTimeLike raw then SIGIL_TIME
  else if isHexLike raw then SIGIL_BINARY
  else SIGIL_STR

namespace KeyState

/-- A text of this type was observed. -/
def sees (state : KeyState) (sigil : UInt8) : Bool :=
  if sigil = SIGIL_INT then state.seenInt
  else if sigil = SIGIL_FLOAT then state.seenFloat
  else if sigil = SIGIL_BOOL then state.seenBool
  else if sigil = SIGIL_TIME then state.seenTime
  else if sigil = SIGIL_BINARY then state.seenBinaryHex
  else if sigil = SIGIL_STR then state.seenString
  else false

variable {state : KeyState} {sigil sigil' : UInt8} {raw : String}

theorem sees_cases (h : state.sees sigil = true) :
    sigil = SIGIL_INT ∧ state.seenInt = true ∨ sigil = SIGIL_FLOAT ∧ state.seenFloat = true ∨
      sigil = SIGIL_BOOL ∧ state.seenBool = true ∨ sigil = SIGIL_TIME ∧ state.seenTime = true ∨
      sigil = SIGIL_BINARY ∧ state.seenBinaryHex = true ∨ sigil = SIGIL_STR ∧ state.seenString = true := by
  unfold sees at h
  split_ifs at h <;> simp_all

/-- Only one type is seen where the types are at most one. -/
theorem sees_unique (hcount : ¬ 1 < state.typeCount) (h : state.sees sigil = true) (h' : state.sees sigil' = true) :
    sigil = sigil' := by
  have hsum : state.typeCount = state.seenInt.toNat + state.seenFloat.toNat + state.seenBool.toNat +
      state.seenTime.toNat + state.seenBinaryHex.toNat + state.seenString.toNat := by
    have hone : ∀ b : Bool, (if b = true then 1 else 0) = b.toNat := by decide
    simp only [typeCount, List.countP_cons, List.countP_nil, id_eq, hone]
    omega
  rcases sees_cases h with ⟨rfl, hs⟩ | ⟨rfl, hs⟩ | ⟨rfl, hs⟩ | ⟨rfl, hs⟩ | ⟨rfl, hs⟩ | ⟨rfl, hs⟩ <;>
    rcases sees_cases h' with ⟨rfl, hs'⟩ | ⟨rfl, hs'⟩ | ⟨rfl, hs'⟩ | ⟨rfl, hs'⟩ | ⟨rfl, hs'⟩ | ⟨rfl, hs'⟩ <;>
    first
      | rfl
      | (rw [hs, hs', Bool.toNat_true] at hsum; omega)

/-- Observing a text keeps the types seen. -/
theorem sees_observe (h : state.sees sigil = true) : (state.observe raw).sees sigil = true := by
  rcases sees_cases h with ⟨rfl, hs⟩ | ⟨rfl, hs⟩ | ⟨rfl, hs⟩ | ⟨rfl, hs⟩ | ⟨rfl, hs⟩ | ⟨rfl, hs⟩ <;>
    · unfold observe
      dsimp only
      split_ifs <;> simp [sees, hs, SIGIL_INT, SIGIL_FLOAT, SIGIL_BOOL, SIGIL_TIME, SIGIL_BINARY, SIGIL_STR]

/-- The type of a text that is observed is seen. -/
theorem sees_observed (hne : raw ≠ "") : (state.observe raw).sees (textSigil raw) = true := by
  unfold observe textSigil
  rw [if_neg hne]
  split_ifs <;> rfl

theorem sees_foldl {texts : List String} : ∀ {state : KeyState},
    (state.sees sigil = true ∨ ∃ t ∈ texts, t ≠ "" ∧ textSigil t = sigil) →
      (texts.foldl observe state).sees sigil = true := by
  induction texts with
  | nil =>
    rintro state (h | ⟨t, ht, -⟩)
    · exact h
    · exact absurd ht List.not_mem_nil
  | cons t texts ih =>
    intro state h
    refine ih ?_
    rcases h with h | ⟨t', ht', hne, rfl⟩
    · exact .inl (sees_observe h)
    · rcases List.mem_cons.mp ht' with rfl | ht'
      · exact .inl (sees_observed hne)
      · exact .inr ⟨t', ht', hne, rfl⟩

/-- A column of a type that was seen has its sigil, unless the policy widens it or takes the first type. -/
theorem resolveSigil_seen {policy : ConflictPolicy} (hsees : state.sees sigil = true)
    (h : state.resolveSigil policy = .ok sigil') :
    sigil = sigil' ∨ (policy = .coerceString ∧ sigil' = SIGIL_STR) ∨ policy = .firstWins := by
  unfold resolveSigil at h
  split at h
  · cases policy with
    | error => cases h
    | coerceString =>
      cases h
      exact .inr (.inl ⟨rfl, rfl⟩)
    | firstWins => exact .inr (.inr rfl)
  · rename_i hcount
    have hsame : ∀ {s : UInt8}, state.sees s = true → (.ok s : Res UInt8) = .ok sigil' → sigil = sigil' :=
      fun hs heq => (sees_unique hcount hsees hs).trans (Outcome.ok.inj heq)
    left
    split_ifs at h with h1 h2 h3 h4 h5 h6
    · exact hsame (s := SIGIL_STR) h1 h
    · exact hsame (s := SIGIL_INT) h2 h
    · exact hsame (s := SIGIL_FLOAT) h3 h
    · exact hsame (s := SIGIL_BOOL) h4 h
    · exact hsame (s := SIGIL_TIME) h5 h
    · exact hsame (s := SIGIL_BINARY) h6 h
    · rcases sees_cases hsees with ⟨-, hs⟩ | ⟨-, hs⟩ | ⟨-, hs⟩ | ⟨-, hs⟩ | ⟨-, hs⟩ | ⟨-, hs⟩
      · exact absurd hs h2
      · exact absurd hs h3
      · exact absurd hs h4
      · exact absurd hs h5
      · exact absurd hs h6
      · exact absurd hs h1

end KeyState

/-- The sigil of a column is the type of each of its texts, unless the policy says otherwise. -/
theorem resolveSigil_text {fields : List (String × String)} {key text : String} {policy : ConflictPolicy} {sigil : UInt8}
    (h : (columnState fields key).resolveSigil policy = .ok sigil) (hfield : (key, text) ∈ fields) (hne : text ≠ "") :
    textSigil text = sigil ∨ (policy = .coerceString ∧ sigil = SIGIL_STR) ∨ policy = .firstWins := by
  refine KeyState.resolveSigil_seen (KeyState.sees_foldl (.inr ⟨text, ?_, hne, rfl⟩)) h
  exact List.mem_map.mpr ⟨_, List.mem_filter.mpr ⟨hfield, decide_eq_true rfl⟩, rfl⟩

/-! ## Texts under a sigil -/

/-- The bytes of a text of ASCII characters. -/
theorem utf8_ascii {s : String} (h : ∀ c ∈ s.toList, c.val ≤ 127) : utf8 s = s.toList.map fun c => c.val.toUInt8 := by
  have hall : ∀ {l : List Char}, (∀ c ∈ l, c.val ≤ 127) →
      l.flatMap String.utf8EncodeChar = l.map fun c => c.val.toUInt8 := by
    intro l
    induction l with
    | nil => exact fun _ => rfl
    | cons c l ih =>
      intro hl
      have hone := String.utf8EncodeChar_eq_singleton (Char.utf8Size_eq_one_iff.mpr (hl c List.mem_cons_self))
      rw [List.flatMap_cons, List.map_cons, hone, List.singleton_append, ih fun c' hc' => hl c' (List.mem_cons_of_mem c hc')]
  rw [← hall h, utf8, ← String.utf8Encode_toList, List.utf8Encode]
  simp

/-- A hexadecimal character is one byte with a value. -/
theorem hexDigitValue_of_isHexDigit {c : Char} (h : isHexDigit c = true) :
    c.val ≤ 127 ∧ (hexDigitValue c.val.toUInt8).isSome = true := by
  have hn : c.val.toUInt8.toNat = c.val.toNat % 256 := UInt32.toNat_toUInt8 _
  simp only [isHexDigit, Char.isDigit, Char.le_def, Bool.or_eq_true, Bool.and_eq_true, decide_eq_true_eq, ge_iff_le,
    UInt32.le_iff_toNat_le] at h ⊢
  have hc : 48 ≤ c.val.toNat ∧ c.val.toNat ≤ 57 ∨ 97 ≤ c.val.toNat ∧ c.val.toNat ≤ 102 ∨
      65 ≤ c.val.toNat ∧ c.val.toNat ≤ 70 := by
    rcases h with (h | h) | h
    · exact .inl h
    · exact .inr (.inl h)
    · exact .inr (.inr h)
  have hle : c.val.toNat ≤ 127 := by omega
  refine ⟨hle, ?_⟩
  rw [hexDigitValue, hn, Nat.mod_eq_of_lt (by omega)]
  split_ifs <;> first | rfl | omega

/-- Pairs of hexadecimal digits are bytes. -/
theorem hexBytes_ok : ∀ {l : Bytes}, (∀ b ∈ l, (hexDigitValue b).isSome = true) → ∃ bytes, hexBytes l = .ok bytes
  | [], _ => ⟨[], rfl⟩
  | [_], _ => ⟨[], rfl⟩
  | a :: b :: rest, h => by
    obtain ⟨bytes, hrest⟩ := hexBytes_ok fun x hx => h x (List.mem_cons_of_mem a (List.mem_cons_of_mem b hx))
    obtain ⟨hi, hhi⟩ := Option.isSome_iff_exists.mp (h a List.mem_cons_self)
    obtain ⟨lo, hlo⟩ := Option.isSome_iff_exists.mp (h b (List.mem_cons_of_mem a List.mem_cons_self))
    have hplus : a ≠ 0x2B := by
      rintro rfl
      cases hhi
    have hboundary : charBoundary rest = true := by
      cases rest with
      | nil => rfl
      | cons c rest =>
        have hc := h c (by simp)
        have hlt : c < 0x80 := by
          rw [hexDigitValue] at hc
          rw [UInt8.lt_iff_toNat_lt]
          show c.toNat < 128
          split_ifs at hc <;> first | omega | cases hc
        simp [charBoundary, hlt]
    have hpair : parseHexByte a b = some (UInt8.ofNat (16 * hi + lo)) := by
      rw [parseHexByte, if_neg hplus, hhi, hlo]
      rfl
    refine ⟨UInt8.ofNat (16 * hi + lo) :: bytes, ?_⟩
    rw [hexBytes, demand_of hboundary, ok_bind, hpair, hrest]
    rfl

/-- What a text stands for under a sigil.  Which time a date stands for is left open. -/
def Denotes (sigil : UInt8) (text : String) : Arg → Prop
  | .i64 n => sigil = SIGIL_INT ∧ parseI64 text.toList = some n
  | .f64 v => sigil = SIGIL_FLOAT ∧ parseF64 text.toList = some v
  | .bool b => sigil = SIGIL_BOOL ∧ text = if b then "true" else "false"
  | .time n => sigil = SIGIL_TIME ∧ ∀ m, parseI64 text.toList = some m → n = m
  | .bytes bytes => sigil = SIGIL_BINARY ∧ hexBytes (utf8 text) = .ok bytes
  | .str s => sigil = SIGIL_STR ∧ s = text
  | .null | .listI64 _ | .listF64 _ => False

/-- The text is written as what it stands for. -/
def Fits (sigil : UInt8) (text : String) (arg : Arg) : Prop :=
  Denotes sigil text arg ∧ valueArg sigil text = .ok (some arg)

/-- A text of the type of its column fits it, unless it is a date. -/
theorem fits_own_type {text : String} (htime : textSigil text ≠ SIGIL_TIME) : ∃ arg, Fits (textSigil text) text arg := by
  unfold textSigil at htime ⊢
  split_ifs at htime ⊢ with h1 h2 h3 h4 h5
  · obtain ⟨n, hn⟩ := Option.isSome_iff_exists.mp h1
    exact ⟨.i64 n, ⟨rfl, hn⟩, by rw [valueArg, if_pos rfl, hn]; rfl⟩
  · obtain ⟨v, hv⟩ := Option.isSome_iff_exists.mp h2
    exact ⟨.f64 v, ⟨rfl, hv⟩, by rw [valueArg, if_neg (by decide), if_pos rfl, hv]; rfl⟩
  · rcases h3 with rfl | rfl
    · exact ⟨.bool true, ⟨rfl, rfl⟩, rfl⟩
    · exact ⟨.bool false, ⟨rfl, rfl⟩, rfl⟩
  · exact absurd rfl htime
  · rw [isHexLike] at h5
    simp only [Bool.and_eq_true, decide_eq_true_eq, beq_iff_eq, List.all_eq_true] at h5
    obtain ⟨⟨-, heven⟩, hhex⟩ := h5
    have hdigits := fun c hc => hexDigitValue_of_isHexDigit (hhex c hc)
    obtain ⟨bytes, hbytes⟩ := hexBytes_ok (l := utf8 text) (by
      rw [utf8_ascii fun c hc => (hdigits c hc).1]
      intro b hb
      obtain ⟨c, hc, rfl⟩ := List.mem_map.mp hb
      exact (hdigits c hc).2)
    refine ⟨.bytes bytes, ⟨rfl, hbytes⟩, ?_⟩
    rw [valueArg, if_neg (by decide), if_neg (by decide), if_neg (by decide), if_neg (by decide), if_pos rfl,
      if_pos heven, hbytes]
  · exact ⟨.str text, ⟨rfl, rfl⟩, by rw [valueArg]; rfl⟩

theorem fits_string (text : String) : Fits SIGIL_STR text (.str text) :=
  ⟨⟨rfl, rfl⟩, by rw [valueArg]; rfl⟩

/-- A date in a column of times is not written. -/
theorem valueArg_date {text : String} (h : parseI64 text.toList = none) : valueArg SIGIL_TIME text = .ok none := by
  rw [valueArg, if_neg (by decide), if_neg (by decide), if_neg (by decide), if_pos rfl, h]
  rfl

/-- A date is no integer. -/
theorem date_not_int {text : String} (h : textSigil text = SIGIL_TIME) : parseI64 text.toList = none := by
  rw [← Option.not_isSome_iff_eq_none]
  intro hint
  rw [textSigil, if_pos hint] at h
  cases h

/-! ## Imports of either format -/

/-- What an import reads: the records of a JSON array, or the header and the rows of a CSV file. -/
inductive ImportInput where
  | json (records : List JsonValue)
  | csv (headers : List String) (rows : List (List String))

namespace ImportInput

variable (floatText : F64 → String)

def inferSchema (args : ImportArgs) : ImportInput → Res InferredSchema
  | .json records => JsonIn.inferSchema floatText (.array records) args
  | .csv headers rows => CsvIn.inferSchema headers rows args

def emit (sorter : SlotSort) (schema : InferredSchema) (args : ImportArgs) : ImportInput → Res (Slice × ImportReport)
  | .json records => JsonIn.emit floatText sorter (.array records) schema args
  | .csv headers rows => CsvIn.emit sorter headers rows schema args

/-- The fields that are passed over: the empty cells of a CSV file. -/
def skip : ImportInput → String → Bool
  | .json _, _ => false
  | .csv _ _, text => text.isEmpty

/-- The keys and texts of each record. -/
def rows (args : ImportArgs) : ImportInput → List (List (String × String))
  | .json records => records.map (JsonIn.textFields floatText)
  | .csv headers rows =>
    rows.map ((if args.csvNoHeader then CsvIn.positionalKeys (rows.headD []).length else headers).zip)

variable {floatText} {args : ImportArgs} {input : ImportInput} {schema : InferredSchema}

theorem skip_eq_false {text : String} (h : text ≠ "") : input.skip text = false := by
  cases input with
  | json records => rfl
  | csv headers rows =>
    rw [skip, ← Bool.not_eq_true, String.isEmpty_iff]
    exact h

theorem inferSchema_inferred (h : input.inferSchema floatText args = .ok schema) :
    Inferred schema (input.rows floatText args).flatten args.conflict := by
  cases input with
  | json records =>
    obtain ⟨fields, hfields, hinf⟩ := JsonIn.inferSchema_eq_ok h
    rw [rows, ← JsonIn.flattenRecords_eq_ok hfields]
    exact hinf
  | csv headers rows =>
    rw [inferSchema, CsvIn.inferSchema, ← List.foldl_map] at h
    have hobs := InferredSchema.Observed.new.merges (rows.map
      ((if args.csvNoHeader then CsvIn.positionalKeys (rows.headD []).length else headers).zip))
    rw [List.nil_append] at hobs
    exact finalize_inferred hobs h

/-- Different columns have different positional keys. -/
theorem positionalKeys_nodup (n : ℕ) : (CsvIn.positionalKeys n).Nodup := by
  refine List.Nodup.map (fun i j heq => ?_) List.nodup_range
  have hlist := congrArg String.toList heq
  simp only [String.toList_append] at hlist
  have hdigits : (toString i).toList = (toString j).toList := by simpa using hlist
  rw [Nat.toString_eq_ofList_toDigits, Nat.toString_eq_ofList_toDigits, String.toList_ofList, String.toList_ofList] at hdigits
  rw [← Nat.ofDigitChars_ten_toDigits (n := i), ← Nat.ofDigitChars_ten_toDigits (n := j), hdigits]

/-- Without a header the schema has as many keys as the first row has cells. -/
theorem keys_of_first_row {row : List String} {rows : List (List String)} {policy : ConflictPolicy}
    (h : Inferred schema ((row :: rows).map (CsvIn.positionalKeys row.length).zip).flatten policy) :
    schema.keys.length = row.length := by
  have hcount : (CsvIn.positionalKeys row.length).length = row.length := by
    rw [CsvIn.positionalKeys, List.length_map, List.length_range]
  have hfirst : ((CsvIn.positionalKeys row.length).zip row).map Prod.fst = CsvIn.positionalKeys row.length :=
    List.map_fst_zip hcount.le
  have hperm : schema.names.Perm (CsvIn.positionalKeys row.length) := by
    refine (List.perm_ext_iff_of_nodup h.nodup (positionalKeys_nodup _)).mpr fun key => ?_
    rw [h.mem, List.map_cons, List.flatten_cons, List.map_append, hfirst, List.mem_append]
    refine ⟨fun hor => hor.elim id fun hrest => ?_, Or.inl⟩
    obtain ⟨e, he, rfl⟩ := List.mem_map.mp hrest
    obtain ⟨fields, hfields, he⟩ := List.mem_flatten.mp he
    obtain ⟨row', -, rfl⟩ := List.mem_map.mp hfields
    exact (List.of_mem_zip he).1
  have hlen := hperm.length_eq
  rwa [InferredSchema.names, List.length_map, hcount] at hlen

/-- The second pass writes the same fields. -/
theorem emit_calls {sorter : SlotSort} {file : Slice} {report : ImportReport}
    (hinfer : input.inferSchema floatText args = .ok schema)
    (h : input.emit floatText sorter schema args = .ok (file, report)) :
    ∃ calls w, (input.rows floatText args).mapM (schema.recordCalls input.skip) = .ok calls ∧
      calls.foldlM (NxsWriter.writeObject sorter) (NxsWriter.new schema.names) = .ok w ∧ w.finish = .ok file := by
  have hinf := inferSchema_inferred hinfer
  cases input with
  | json records =>
    obtain ⟨fields, calls, w, hfields, hcalls, hw, hfile⟩ := JsonIn.emit_eq_ok h
    obtain rfl := JsonIn.flattenRecords_eq_ok hfields
    exact ⟨calls, w, hcalls, hw, hfile⟩
  | csv headers rows =>
    obtain ⟨w, hw, hfin⟩ := bind_eq_ok.mp h
    obtain ⟨file', hfile, heq⟩ := bind_eq_ok.mp hfin
    cases heq
    have hkeys : rows.map ((if args.csvNoHeader then CsvIn.positionalKeys schema.keys.length else headers).zip) =
        ImportInput.rows floatText args (.csv headers rows) := by
      rw [ImportInput.rows]
      cases rows with
      | nil => rfl
      | cons row rows =>
        by_cases hno : args.csvNoHeader = true
        · rw [ImportInput.rows] at hinf
          simp only [hno, if_true, List.headD_cons] at hinf ⊢
          rw [keys_of_first_row hinf]
        · simp only [if_neg hno]
    rw [← List.foldlM_map, hkeys] at hw
    obtain ⟨calls, hcalls, hwrite⟩ := emitRecords_calls hw
    exact ⟨calls, w, hcalls, hwrite, hfile⟩

end ImportInput

/-! ## Reading the values -/

/-- The schema has a slot for every key and stores its name, and every record starts below 4 GiB. -/
structure ImportFits (schema : InferredSchema) (skip : String → Bool) (rows : List (List (String × String))) : Prop where
  keys : schema.names.length < 65536
  names : ∀ key ∈ schema.names, NulFree key
  starts : ∀ calls, rows.mapM (schema.recordCalls skip) = .ok calls →
    ∀ i < rows.length, callStart schema.names.length calls i < 2 ^ 32

/-- The object of a record is short enough for its offset table. -/
def RecordShort (schema : InferredSchema) (skip : String → Bool) (fields : List (String × String)) : Prop :=
  ∀ calls, schema.recordCalls skip fields = .ok calls → objectLen schema.names.length (callCells calls) ≤ 65535

/-- Record `i` holds, in the slot of the key, what the text stands for under its sigil. -/
def Reader.HoldsText (r : Reader) (i slot : ℕ) (key : String) (sigil : UInt8) (text : String) : Prop :=
  ∃ arg, Denotes sigil text arg ∧ r.Reads i key arg.cell ∧ r.SlotAt i slot arg.bytesOf

/-- What becomes of a text under the sigil of its column: it is read back, or it is a date, which is left
out.  Where the first type of a column wins, nothing is said of a text that does not fit it. -/
def TextKept (r : Reader) (policy : ConflictPolicy) (i slot : ℕ) (key : String) (sigil : UInt8) (text : String) : Prop :=
  r.HoldsText i slot key sigil text ∨
    (sigil = SIGIL_TIME ∧ parseI64 text.toList = none ∧ r.Reads i key .absent) ∨
    (policy = .firstWins ∧ ∀ arg, ¬ Fits sigil text arg)

section Kept

variable {schema : InferredSchema} {skip : String → Bool} {policy : ConflictPolicy}
  {rows : List (List (String × String))} {calls : List (List Call)} {r : Reader} {sigils : List UInt8}
  {objects : List Bytes} (h : Imported schema skip policy rows calls r sigils objects)
  {i : ℕ} {fields : List (String × String)} {key text : String}

include h

/-- A record whose keys do not collide is read back as its writes. -/
theorem Imported.reads_record (hi : rows[i]? = some fields) (hkeys : (fields.map Prod.fst).Nodup)
    (hshort : RecordShort schema skip fields) : ∃ cs, schema.recordCalls skip fields = .ok cs ∧
      r.ReadsWrites i schema.names cs := by
  obtain ⟨cs, hcs, hcalls⟩ := h.record_calls hi
  obtain ⟨hdistinct, hslots⟩ := recordCalls_nodup h.inferred.nodup h.small.le hkeys hcalls
  exact ⟨cs, hcalls, h.table.reads_filled h.inferred.nodup h.filled hcs h.count (h.start hcs) hslots hdistinct
    (hshort cs hcalls)⟩

/-- The text of a key that does not collide is kept. -/
theorem Imported.text_kept (hi : rows[i]? = some fields) (hkeys : (fields.map Prod.fst).Nodup)
    (hshort : RecordShort schema skip fields) (hfield : (key, text) ∈ fields) (hne : text ≠ "") (hskip : skip text = false) :
    ∃ (slot : ℕ) (k : InferredKey), schema.keys[slot]? = some k ∧ k.name = key ∧ TextKept r policy i slot key k.sigil text := by
  have hall : (key, text) ∈ rows.flatten := List.mem_flatten.mpr ⟨fields, List.mem_of_getElem? hi, hfield⟩
  obtain ⟨slot, k, hk, rfl, hslot, hlt, hsigil⟩ := h.key_at ((h.inferred.mem key).mpr (List.mem_map_of_mem hall))
  obtain ⟨cs, hcalls, hread⟩ := h.reads_record hi hkeys hshort
  refine ⟨slot, k, hk, rfl, ?_⟩
  have hcall := InferredSchema.fieldCall_at h.inferred.nodup hk hskip
  by_cases hfits : ∃ arg, Fits k.sigil text arg
  · obtain ⟨arg, hden, harg⟩ := hfits
    rw [harg, ok_bind, Nat.mod_eq_of_lt hlt] at hcall
    obtain ⟨hcell, hat⟩ := hread.written _ (recordCalls_written hfield hcall hcalls) k.name hslot
    exact .inl ⟨arg, hden, hcell, hat⟩
  · rcases resolveSigil_text hsigil hall hne with hown | ⟨-, hstr⟩ | hfirst
    · have htime : textSigil text = SIGIL_TIME := by
        by_contra htime
        exact hfits (hown ▸ fits_own_type htime)
      have hnone := date_not_int htime
      refine .inr (.inl ⟨hown ▸ htime, hnone, (hread.unwritten slot k.name hslot fun c hc heq => ?_).1⟩)
      -- the only field of the key is the date, which is not written
      obtain ⟨field, hmem, slot', k', arg, hk', hname', rfl, harg⟩ := recordCalls_slot h.inferred.nodup hcalls c hc
      obtain rfl : slot' = slot := (Nat.mod_eq_of_lt (h.slot_lt hk')).symm.trans heq
      obtain rfl : k' = k := Option.some.inj (hk'.symm.trans hk)
      obtain rfl : field = (k'.name, text) := List.inj_on_of_nodup_map hkeys hmem hfield hname'.symm
      rw [← hown, htime, valueArg_date hnone] at harg
      cases harg
    · exact absurd ⟨_, hstr ▸ fits_string text⟩ hfits
    · exact .inr (.inr ⟨hfirst, fun arg harg => hfits ⟨arg, harg⟩⟩)

end Kept

/-- Importing keeps every value that is not empty: it is read back as what its text stands for under the
sigil of its column.  Dates are left out of columns of times. -/
theorem import_keeps_values {floatText : F64 → String} {sorter : SlotSort} {input : ImportInput} {args : ImportArgs}
    {schema : InferredSchema} {file : Slice} {report : ImportReport}
    (hinfer : input.inferSchema floatText args = .ok schema)
    (hemit : input.emit floatText sorter schema args = .ok (file, report))
    (hfits : ImportFits schema input.skip (input.rows floatText args)) :
    ∃ r, Reader.new file = .ok r ∧ ∀ i fields key text, (input.rows floatText args)[i]? = some fields →
      (fields.map Prod.fst).Nodup → RecordShort schema input.skip fields → (key, text) ∈ fields → text ≠ "" →
        ∃ slot k, schema.keys[slot]? = some k ∧ k.name = key ∧ TextKept r args.conflict i slot key k.sigil text := by
  obtain ⟨calls, w, hcalls, hw, hfile⟩ := ImportInput.emit_calls hinfer hemit
  obtain ⟨r, sigils, objects, hr, himp⟩ := Imported.opens (ImportInput.inferSchema_inferred hinfer) hcalls hw hfile
    hfits.keys hfits.names (hfits.starts calls hcalls)
  refine ⟨r, hr, fun i fields key text hi hkeys hshort hfield hne => ?_⟩
  exact himp.text_kept hi hkeys hshort hfield hne (ImportInput.skip_eq_false hne)

/-- One record with a number and a name. -/
def namedInput : ImportInput := .json [.object [("id", .number (.posInt 7)), ("name", .string "x")]]

def namedSchema : InferredSchema :=
  ⟨[⟨"id", SIGIL_INT, false, none⟩, ⟨"name", SIGIL_STR, false, none⟩],
    [⟨true, false, false, false, false, false, false, 1, 1, some SIGIL_INT⟩,
      ⟨false, false, false, false, false, true, false, 1, 1, some SIGIL_STR⟩], 1⟩

theorem import_keeps_values_named : ∃ file report r,
    namedInput.emit (fun _ => "0.5") SlotSort.stable namedSchema ⟨.error, false, 64⟩ = .ok (file, report) ∧
      Reader.new file = .ok r ∧ r.HoldsText 0 1 "name" SIGIL_STR "x" := by
  have hinfer : namedInput.inferSchema (fun _ => "0.5") ⟨.error, false, 64⟩ = .ok namedSchema := by decide
  have hcalls : (namedInput.rows (fun _ => "0.5") ⟨.error, false, 64⟩).mapM (namedSchema.recordCalls namedInput.skip) =
      .ok [[⟨0, .i64 7⟩, ⟨1, .str "x"⟩]] := by decide
  have hfits : ImportFits namedSchema namedInput.skip (namedInput.rows (fun _ => "0.5") ⟨.error, false, 64⟩) := by
    refine ⟨by decide, by decide, fun calls hc i hi => ?_⟩
    obtain rfl := Outcome.ok.inj (hc.symm.trans hcalls)
    match i, hi with
    | 0, _ => decide
  obtain ⟨⟨file, report⟩, hemit⟩ := isOk_iff.mp (show (namedInput.emit (fun _ => "0.5") SlotSort.stable namedSchema
    ⟨.error, false, 64⟩).isOk = true by decide +kernel)
  obtain ⟨r, hr, hkept⟩ := import_keeps_values hinfer hemit hfits
  have hshort : RecordShort namedSchema namedInput.skip [("id", "7"), ("name", "x")] := by
    intro calls hc
    obtain rfl : calls = [⟨0, .i64 7⟩, ⟨1, .str "x"⟩] := by
      refine Outcome.ok.inj (hc.symm.trans ?_)
      decide
    decide
  obtain ⟨slot, k, hk, hname, htext⟩ := hkept 0 [("id", "7"), ("name", "x")] "name" "x" (by decide) (by decide) hshort
    (by decide) (by decide)
  have hslot : slot = 1 ∧ k.sigil = SIGIL_STR := by
    match slot, hk with
    | 0, hk =>
      cases hk
      exact absurd hname (by decide)
    | 1, hk =>
      cases hk
      exact ⟨rfl, rfl⟩
  obtain ⟨rfl, hsigil⟩ := hslot
  rw [hsigil] at htext
  rcases htext with hholds | ⟨htime, -⟩ | ⟨hfirst, -⟩
  · exact ⟨file, report, r, hemit, hr, hholds⟩
  · exact absurd htime (by decide)
  · exact absurd hfirst (by decide)

/-- One record with a date. -/
def datedInput : ImportInput := .json [.object [("day", .string "2026-04-30")]]

def datedSchema : InferredSchema :=
  ⟨[⟨"day", SIGIL_TIME, false, none⟩], [⟨false, false, false, true, false, false, false, 1, 1, some SIGIL_TIME⟩], 1⟩

theorem import_leaves_out_date : ¬ ∀ (floatText : F64 → String) (sorter : SlotSort) (input : ImportInput)
    (args : ImportArgs) (schema : InferredSchema) (file : Slice) (report : ImportReport),
      input.inferSchema floatText args = .ok schema → input.emit floatText sorter schema args = .ok (file, report) →
        ∃ r, Reader.new file = .ok r ∧ ∀ i fields key text, (input.rows floatText args)[i]? = some fields →
          (fields.map Prod.fst).Nodup → (key, text) ∈ fields → text ≠ "" →
            ∃ slot k, schema.keys[slot]? = some k ∧ k.name = key ∧ r.HoldsText i slot key k.sigil text := by
  intro hclaim
  have hinfer : datedInput.inferSchema (fun _ => "0.5") ⟨.error, false, 64⟩ = .ok datedSchema := by decide
  have hrun : ((datedInput.emit (fun _ => "0.5") SlotSort.stable datedSchema ⟨.error, false, 64⟩ >>= fun p =>
      Reader.new p.1).bind fun r => .ok (decide (r.i64At 0 "day" = none'))) = .ok true := by decide +kernel
  obtain ⟨r, hr, hread⟩ := bind_eq_ok.mp hrun
  obtain ⟨⟨file, report⟩, hemit, hnew⟩ := bind_eq_ok.mp hr
  obtain ⟨r', hr', hholds⟩ := hclaim _ _ _ _ _ file report hinfer hemit
  obtain rfl : r = r' := Outcome.ok.inj (hnew.symm.trans hr')
  obtain ⟨slot, k, hk, hname, arg, hden, hcell, -⟩ := hholds 0 [("day", "2026-04-30")] "day" "2026-04-30" (by decide)
    (by decide) (by decide) (by decide)
  have hsigil : k.sigil = SIGIL_TIME := by
    match slot, hk with
    | 0, hk =>
      cases hk
      rfl
  -- only a time has the sigil of the column, and the record has none
  rw [hsigil] at hden
  cases arg with
  | time n =>
    have hint : r.i64At 0 "day" = .ok n := hcell
    rw [of_decide_eq_true (Outcome.ok.inj hread)] at hint
    cases hint
  | i64 n => exact absurd hden.1 (by decide)
  | f64 v => exact absurd hden.1 (by decide)
  | bool b => exact absurd hden.1 (by decide)
  | bytes b => exact absurd hden.1 (by decide)
  | str t => exact absurd hden.1 (by decide)
  | null | listI64 _ | listF64 _ => exact hden

end Nyxis
