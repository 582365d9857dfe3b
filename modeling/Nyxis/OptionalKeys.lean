import Nyxis.InferenceOrder
import Nyxis.XmlIn

/-!
# OptionalKeys — when the optional flag of a key is right

The flag says that fewer texts than records were seen of the key.  A text that the key has twice in one record stands
in for a record that has none, and a record whose value of the key is no text counts as one without a value.

* `texts_and_records`: how the number of texts and the number of records differ.
* `optional_exact_iff`: the inputs for which the flag is right.
-/

namespace Nyxis

open Lib Lib.Outcome

/-- The key is in the schema and marked optional. -/
def InferredSchema.Optional (schema : InferredSchema) (key : String) : Prop := ∃ sigil, schema.entry key = some (sigil, true)

/-- The number of texts of a key in a record that are not empty. -/
def textCount (record : List (String × String)) (key : String) : ℕ :=
  (fieldTexts record key).countP fun text => text ≠ ""

/-- The record has a text at the key. -/
def HasText (record : List (String × String)) (key : String) : Prop := ∃ text, (key, text) ∈ record ∧ text ≠ ""

section Counts

variable {ρ : Type} (texts : ρ → ℕ) (HasValue : ρ → Prop) [DecidablePred HasValue]

/-- The texts beyond the first one of a record. -/
def repeated (records : List ρ) : ℕ := (records.map fun r => texts r - 1).sum

/-- The records with a value that is no text. -/
def textless (records : List ρ) : ℕ := records.countP fun r => HasValue r ∧ texts r = 0

/-- The records without a value. -/
def missing (records : List ρ) : ℕ := records.countP fun r => ¬ HasValue r

/-- If every record has a value, the texts that are repeated make up for the values that are no texts; if some
record has none, they do not make up for the records without a text. -/
def RepeatsFit (records : List ρ) : Prop :=
  (missing HasValue records = 0 → textless texts HasValue records ≤ repeated texts records) ∧
    (0 < missing HasValue records → repeated texts records < textless texts HasValue records + missing HasValue records)

instance (records : List ρ) : Decidable (RepeatsFit texts HasValue records) := inferInstanceAs (Decidable (_ ∧ _))

variable {texts HasValue}

/-- The texts are as many as the records, but for the repeated ones and the records without a text. -/
theorem texts_and_records (htext : ∀ r, 0 < texts r → HasValue r) (records : List ρ) :
    (records.map texts).sum + textless texts HasValue records + missing HasValue records =
      records.length + repeated texts records := by
  induction records with
  | nil => rfl
  | cons r records ih =>
    rw [textless, missing, repeated] at ih ⊢
    rw [List.map_cons, List.map_cons, List.sum_cons, List.sum_cons, List.countP_cons, List.countP_cons, List.length_cons]
    by_cases hpos : 0 < texts r
    · have hvalue := htext r hpos
      simp only [hvalue, true_and, not_true_eq_false, decide_false, Bool.false_eq_true, if_false,
        decide_eq_true_eq, if_neg (Nat.ne_of_gt hpos)]
      omega
    · have hzero : texts r = 0 := by omega
      by_cases hvalue : HasValue r
      · simp only [hzero, hvalue, and_true, not_true_eq_false, decide_false, decide_true, Bool.false_eq_true,
          if_false, if_true]
        omega
      · simp only [hzero, hvalue, false_and, not_false_eq_true, decide_false, decide_true, Bool.false_eq_true,
          if_false, if_true]
        omega

theorem missing_pos {records : List ρ} : 0 < missing HasValue records ↔ ∃ r ∈ records, ¬ HasValue r := by
  rw [missing, List.countP_pos_iff]
  simp only [decide_eq_true_eq]

/-- Fewer texts than records, in terms of what the records have. -/
theorem fewer_texts_iff (htext : ∀ r, 0 < texts r → HasValue r) (records : List ρ) :
    ((records.map texts).sum < records.length ↔ ∃ r ∈ records, ¬ HasValue r) ↔ RepeatsFit texts HasValue records := by
  have hsum := texts_and_records htext records
  rw [← missing_pos, RepeatsFit]
  constructor
  · intro h
    by_cases hmissing : 0 < missing HasValue records
    · have := h.mpr hmissing
      exact ⟨fun h0 => by omega, fun _ => by omega⟩
    · have := h.not.mpr hmissing
      exact ⟨fun _ => by omega, fun h0 => absurd h0 hmissing⟩
  · rintro ⟨h0, hpos⟩
    by_cases hmissing : 0 < missing HasValue records
    · have := hpos hmissing
      exact ⟨fun _ => hmissing, fun _ => by omega⟩
    · have := h0 (by omega)
      exact ⟨fun hlt => by omega, fun h => absurd h hmissing⟩

end Counts

/-! ## The number of texts -/

theorem presentCount_foldl (texts : List String) (state : KeyState) :
    (texts.foldl KeyState.observe state).presentCount = state.presentCount + texts.countP fun text => text ≠ "" := by
  induction texts generalizing state with
  | nil => rfl
  | cons raw texts ih =>
    have hone : (state.observe raw).presentCount = state.presentCount + if raw = "" then 0 else 1 := by
      simp only [KeyState.observe]
      split_ifs <;> rfl
    rw [List.foldl_cons, ih, hone, List.countP_cons]
    by_cases hraw : raw = ""
    · simp [hraw]
    · simp only [hraw, if_false, ne_eq, not_false_eq_true, decide_true, if_true]
      omega

theorem textCount_append (a b : List (String × String)) (key : String) :
    textCount (a ++ b) key = textCount a key + textCount b key := by
  rw [textCount, fieldTexts, List.filter_append, List.map_append, List.countP_append]
  rfl

/-- What is counted of a key are its texts in the records, repeated ones included. -/
theorem presentCount_records (records : List (List (String × String))) (key : String) :
    (columnState records.flatten key).presentCount = (records.map fun record => textCount record key).sum := by
  have hcount : (columnState records.flatten key).presentCount = textCount records.flatten key := by
    rw [columnState, presentCount_foldl]
    exact Nat.zero_add _
  rw [hcount]
  clear hcount
  induction records with
  | nil => rfl
  | cons record records ih => rw [List.flatten_cons, textCount_append, ih, List.map_cons, List.sum_cons]

theorem hasText_iff {record : List (String × String)} {key : String} : HasText record key ↔ 0 < textCount record key := by
  rw [textCount, List.countP_pos_iff]
  simp only [fieldTexts, List.mem_map, List.mem_filter, decide_eq_true_eq, HasText]
  constructor
  · rintro ⟨text, hmem, hne⟩
    exact ⟨text, ⟨(key, text), ⟨hmem, rfl⟩, rfl⟩, hne⟩
  · rintro ⟨text, ⟨⟨k, t⟩, ⟨hmem, rfl⟩, rfl⟩, hne⟩
    exact ⟨t, hmem, hne⟩

instance (record : List (String × String)) (key : String) : Decidable (HasText record key) :=
  decidable_of_iff _ hasText_iff.symm

/-- A key is optional where fewer texts than records were seen of it. -/
theorem optional_iff_fewer {records : List (List (String × String))} {policy : ConflictPolicy} {schema : InferredSchema}
    (h : inferRecords policy records = .ok schema) {key : String} (hkey : key ∈ schema.names) :
    schema.Optional key ↔ (records.map fun record => textCount record key).sum < records.length := by
  have hobs := observed_records records
  have hmem := ((finalize_inferred hobs h).mem key).mp hkey
  have hentry := finalize_entry hobs h key
  have htotal : (records.foldl InferredSchema.merge InferredSchema.new).totalRecords = records.length := by
    rw [totalRecords_merges]
    exact Nat.zero_add _
  rw [columnEntry, if_pos hmem, htotal, presentCount_records] at hentry
  rw [InferredSchema.Optional, hentry]
  rcases finalize_cases hobs policy with ⟨hall, -⟩ | ⟨-, e, herr⟩
  · obtain ⟨sigil, hsigil⟩ := hall key hmem
    rw [hsigil]
    simp [toOption]
  · rw [inferRecords, herr] at h
    cases h

/-! ## JSON, CSV and XML -/

/-- The names of the columns. -/
def CsvIn.columnKeys (headers : List String) (rows : List (List String)) (args : ImportArgs) : List String :=
  if args.csvNoHeader then positionalKeys (rows.headD []).length else headers

theorem JsonIn.absentAt_of_textless {floatText : F64 → String} {record : JsonValue} {key : String}
    (h : 0 < textCount (textFields floatText record) key) : ¬ AbsentAt record key := by
  intro habsent
  obtain ⟨text, hmem, hne⟩ := hasText_iff.mpr h
  obtain ⟨leaf, hleaf, heq⟩ := List.mem_map.mp hmem
  obtain ⟨rfl, rfl⟩ := Prod.mk.inj heq
  exact hne (leafText_null (habsent leaf hleaf rfl))

/-- When the optional flags are right: for the records of a JSON array, the rows of a CSV file and the records of an
XML document. -/
theorem optional_exact_iff (floatText : F64 → String) (readEvents : Bytes → List XmlIn.XmlEvent) :
    (∀ (args : ImportArgs) (records : List JsonValue) (schema : InferredSchema),
      JsonIn.inferSchema floatText (.array records) args = .ok schema → ∀ key ∈ schema.names,
        ((schema.Optional key ↔ ∃ record ∈ records, JsonIn.AbsentAt record key) ↔
          RepeatsFit (fun record => textCount (JsonIn.textFields floatText record) key)
            (fun record => ¬ JsonIn.AbsentAt record key) records)) ∧
    (∀ (headers : List String) (rows : List (List String)) (args : ImportArgs) (schema : InferredSchema),
      CsvIn.inferSchema headers rows args = .ok schema → ∀ key ∈ schema.names,
        ((schema.Optional key ↔ ∃ row ∈ rows, ¬ HasText ((CsvIn.columnKeys headers rows args).zip row) key) ↔
          RepeatsFit (fun row => textCount ((CsvIn.columnKeys headers rows args).zip row) key)
            (fun row => HasText ((CsvIn.columnKeys headers rows args).zip row) key) rows)) ∧
    ∀ (src : Bytes) (args : XmlArgs) (schema : InferredSchema),
      XmlIn.inferSchema readEvents src args = .ok schema → ∃ recordTag records, args.xmlRecordTag = some recordTag ∧
        XmlIn.parseRecords args recordTag (readEvents src) = .ok records ∧ ∀ key ∈ schema.names,
          ((schema.Optional key ↔ ∃ record ∈ records, ¬ HasText record key) ↔
            RepeatsFit (fun record => textCount record key) (fun record => HasText record key) records) := by
  refine ⟨fun args records schema h key hkey => ?_, fun headers rows args schema h key hkey => ?_,
    fun src args schema h => ?_⟩
  · rw [JsonIn.inferSchema_records] at h
    obtain ⟨fields, hfields, h⟩ := bind_eq_ok.mp h
    have heq := JsonIn.flattenRecords_eq_ok hfields
    have hfit := fewer_texts_iff (fun record => @JsonIn.absentAt_of_textless floatText record key) records
    simp only [not_not] at hfit
    rw [optional_iff_fewer h hkey, heq, List.map_map, List.length_map]
    exact hfit
  · have hrecords : inferRecords args.conflict (rows.map (CsvIn.columnKeys headers rows args).zip) = .ok schema := by
      rw [inferRecords, List.foldl_map]
      exact h
    rw [optional_iff_fewer hrecords hkey, List.map_map, List.length_map]
    exact fewer_texts_iff (fun _ => hasText_iff.mpr) rows
  · rw [XmlIn.inferSchema] at h
    cases htag : args.xmlRecordTag with
    | none =>
      rw [htag] at h
      cases h
    | some recordTag =>
      rw [htag] at h
      obtain ⟨-, -, h⟩ := bind_eq_ok.mp h
      obtain ⟨records, hrecords, h⟩ := bind_eq_ok.mp h
      refine ⟨recordTag, records, rfl, hrecords, fun key hkey => ?_⟩
      rw [optional_iff_fewer h hkey]
      exact fewer_texts_iff (fun _ => hasText_iff.mpr) records

/-- A record with a value at the key, and one with a null. -/
def onceAndNull : List JsonValue := [.object [("a", .bool true)], .object [("a", .null)]]

/-- An element `r` with an element `a` in it. -/
def oneElement : List XmlIn.XmlEvent :=
  [.start (.ok "r") [], .start (.ok "a") [], .text (.ok "true"), .stop, .stop]

theorem optional_exact_once :
    (∃ schema, JsonIn.inferSchema (fun _ => "") (.array onceAndNull) JsonIn.defaultArgs = .ok schema ∧
      (schema.Optional "a" ↔ ∃ record ∈ onceAndNull, JsonIn.AbsentAt record "a")) ∧
    (∃ schema, CsvIn.inferSchema ["a"] [["true"], [""]] JsonIn.defaultArgs = .ok schema ∧
      (schema.Optional "a" ↔ ∃ row ∈ [["true"], [""]], ¬ HasText (["a"].zip row) "a")) ∧
    ∃ schema, XmlIn.inferSchema (fun _ => oneElement) [] ⟨JsonIn.defaultArgs, some "r", .asFields, 64⟩ = .ok schema ∧
      (schema.Optional "a" ↔ ∃ record ∈ [[("a", "true")]], ¬ HasText record "a") := by
  refine ⟨?_, ?_, ?_⟩
  · have hrun : (JsonIn.inferSchema (fun _ => "") (.array onceAndNull) JsonIn.defaultArgs >>= fun schema =>
        .ok schema.names) = .ok ["a"] := by decide +kernel
    obtain ⟨schema, hschema, hnames⟩ := bind_eq_ok.mp hrun
    have hkey : "a" ∈ schema.names := by simp [Outcome.ok.inj hnames]
    exact ⟨schema, hschema, ((optional_exact_iff (fun _ => "") fun _ => oneElement).1 _ _ schema hschema "a" hkey).mpr (by decide +kernel)⟩
  · have hrun : (CsvIn.inferSchema ["a"] [["true"], [""]] JsonIn.defaultArgs >>= fun schema => .ok schema.names) = .ok ["a"] := by
      decide +kernel
    obtain ⟨schema, hschema, hnames⟩ := bind_eq_ok.mp hrun
    have hkey : "a" ∈ schema.names := by simp [Outcome.ok.inj hnames]
    exact ⟨schema, hschema, ((optional_exact_iff (fun _ => "") fun _ => oneElement).2.1 _ _ _ schema hschema "a" hkey).mpr (by decide +kernel)⟩
  · have hrun : (XmlIn.inferSchema (fun _ => oneElement) [] ⟨JsonIn.defaultArgs, some "r", .asFields, 64⟩ >>= fun schema =>
        .ok schema.names) = .ok ["a"] := by decide +kernel
    obtain ⟨schema, hschema, hnames⟩ := bind_eq_ok.mp hrun
    have hkey : "a" ∈ schema.names := by simp [Outcome.ok.inj hnames]
    obtain ⟨recordTag, records, htag, hrecords, hall⟩ :=
      (optional_exact_iff (fun _ => "") fun _ => oneElement).2.2 _ _ schema hschema
    obtain rfl : "r" = recordTag := Option.some.inj htag
    have heq : records = [[("a", "true")]] := by
      have hparse : XmlIn.parseRecords ⟨JsonIn.defaultArgs, some "r", .asFields, 64⟩ "r" oneElement =
          .ok [[("a", "true")]] := by decide +kernel
      exact Outcome.ok.inj (hrecords.symm.trans hparse)
    subst heq
    exact ⟨schema, hschema, (hall "a" hkey).mpr (by decide +kernel)⟩

/-- A record with the key twice, and one without it. -/
def twiceAndMissing : List JsonValue := [.object [("a.b", .bool true), ("a", .object [("b", .bool true)])], .object []]

/-- The flag says that the key is in every record, and the second record does not have it. -/
theorem optional_not_exact : ¬ ∀ (floatText : F64 → String) (args : ImportArgs) (records : List JsonValue)
    (schema : InferredSchema), JsonIn.inferSchema floatText (.array records) args = .ok schema →
      ∀ key ∈ schema.names, (schema.Optional key ↔ ∃ record ∈ records, JsonIn.AbsentAt record key) := by
  intro hall
  have hrun : (JsonIn.inferSchema (fun _ => "") (.array twiceAndMissing) JsonIn.defaultArgs >>= fun schema =>
      .ok (schema.names, schema.entry "a.b")) = .ok (["a.b"], some (SIGIL_BOOL, false)) := by decide +kernel
  obtain ⟨schema, hschema, hread⟩ := bind_eq_ok.mp hrun
  obtain ⟨hnames, hentry⟩ := Prod.mk.inj (Outcome.ok.inj hread)
  have hkey : "a.b" ∈ schema.names := by simp [hnames]
  have hmissing : ∃ record ∈ twiceAndMissing, JsonIn.AbsentAt record "a.b" :=
    ⟨.object [], by simp [twiceAndMissing], by decide +kernel⟩
  obtain ⟨sigil, hoptional⟩ := (hall _ _ _ schema hschema "a.b" hkey).mpr hmissing
  rw [hentry] at hoptional
  cases hoptional

end Nyxis
