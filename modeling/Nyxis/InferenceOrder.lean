import Nyxis.ImportAbsence

/-!
# InferenceOrder — inference does not depend on the order of the records

What a key is resolved to depends on the texts that were seen of it, and under `FirstWins` on the first of them.

* `columnState_perm`: the observations commute, except for the first sigil.
* `finalize_cases`: a schema is inferred exactly when the texts of every key resolve to a sigil.
* `inference_order`: the records in another order give the same sigils and optional flags, or fail as well.
-/

namespace Nyxis

open Lib Lib.Outcome

/-- The sigil of a key, and whether it is optional. -/
def InferredSchema.entry (schema : InferredSchema) (key : String) : Option (UInt8 × Bool) :=
  (schema.keys.find? fun k => k.name == key).map fun k => (k.sigil, k.optional)

/-- Both succeed and agree on every key, or both fail. -/
def SameInference (a b : Res InferredSchema) : Prop :=
  (∃ s t, a = .ok s ∧ b = .ok t ∧ ∀ key, s.entry key = t.entry key) ∨ (∃ e, a = .err e) ∧ ∃ e, b = .err e

/-- The schema of some records. -/
def inferRecords (policy : ConflictPolicy) (records : List (List (String × String))) : Res InferredSchema :=
  (records.foldl InferredSchema.merge InferredSchema.new).finalize policy

/-! ## Observations commute -/

/-- What is known of a key without the first sigil. -/
def KeyState.unordered (state : KeyState) : KeyState := { state with firstSigil := none }

/-- Two states put together, without the first sigil. -/
def KeyState.join (a b : KeyState) : KeyState where
  seenInt := a.seenInt || b.seenInt
  seenFloat := a.seenFloat || b.seenFloat
  seenBool := a.seenBool || b.seenBool
  seenTime := a.seenTime || b.seenTime
  seenBinaryHex := a.seenBinaryHex || b.seenBinaryHex
  seenString := a.seenString || b.seenString
  seenNull := a.seenNull || b.seenNull
  totalRecordsSeenIn := a.totalRecordsSeenIn + b.totalRecordsSeenIn
  presentCount := a.presentCount + b.presentCount
  firstSigil := none

theorem join_right_comm (a b c : KeyState) : (a.join b).join c = (a.join c).join b := by
  simp only [KeyState.join, Bool.or_right_comm, Nat.add_right_comm]

/-- To observe a text is to put together what was known and what the text alone says. -/
theorem unordered_observe (state : KeyState) (raw : String) :
    (state.observe raw).unordered = state.join (KeyState.new.observe raw) := by
  simp only [KeyState.observe]
  split_ifs <;> simp [KeyState.join, KeyState.unordered, KeyState.new]

theorem unordered_join (a b : KeyState) : a.unordered.join b = a.join b := rfl

theorem unordered_foldl (texts : List String) (state : KeyState) :
    (texts.foldl KeyState.observe state).unordered =
      texts.foldl (fun state raw => state.join (KeyState.new.observe raw)) state.unordered := by
  induction texts generalizing state with
  | nil => rfl
  | cons raw texts ih => rw [List.foldl_cons, List.foldl_cons, ih, unordered_observe, unordered_join]

theorem columnState_perm {fields fields' : List (String × String)} (h : fields.Perm fields') (key : String) :
    (columnState fields key).unordered = (columnState fields' key).unordered := by
  have htexts : (fieldTexts fields key).Perm (fieldTexts fields' key) := (h.filter _).map _
  rw [columnState, columnState, unordered_foldl, unordered_foldl]
  exact htexts.foldl_eq' (fun a _ b _ state => join_right_comm state _ _) _

/-- Only `FirstWins` looks at the first sigil. -/
theorem resolveSigil_unordered {policy : ConflictPolicy} (hpolicy : policy ≠ .firstWins) (state : KeyState) :
    state.unordered.resolveSigil policy = state.resolveSigil policy := by
  cases policy with
  | firstWins => exact absurd rfl hpolicy
  | error => rfl
  | coerceString => rfl

/-! ## What is inferred -/

theorem totalRecords_merges (records : List (List (String × String))) (acc : InferredSchema) :
    (records.foldl InferredSchema.merge acc).totalRecords = acc.totalRecords + records.length := by
  have hfields : ∀ (fields : List (String × String)) (acc : InferredSchema),
      (fields.foldl InferredSchema.observeField acc).totalRecords = acc.totalRecords := by
    intro fields
    induction fields with
    | nil => exact fun _ => rfl
    | cons field fields ih =>
      intro acc
      rw [List.foldl_cons, ih, InferredSchema.observeField]
      split <;> rfl
  induction records generalizing acc with
  | nil => rfl
  | cons record records ih =>
    rw [List.foldl_cons, ih, InferredSchema.merge]
    dsimp only
    rw [hfields, List.length_cons]
    omega

/-- What the entry of a key should be. -/
def columnEntry (fields : List (String × String)) (total : ℕ) (policy : ConflictPolicy) (key : String) :
    Option (UInt8 × Bool) :=
  if key ∈ fields.map Prod.fst then
    ((columnState fields key).resolveSigil policy).toOption.map fun sigil =>
      (sigil, decide ((columnState fields key).presentCount < total))
  else none

section

variable {acc schema : InferredSchema} {fields : List (String × String)} {policy : ConflictPolicy}

theorem finalize_entry (h : acc.Observed fields) (hfin : acc.finalize policy = .ok schema) (key : String) :
    schema.entry key = columnEntry fields acc.totalRecords policy key := by
  have hinf := finalize_inferred h hfin
  rw [InferredSchema.entry, columnEntry]
  cases hfind : schema.keys.find? fun k => k.name == key with
  | none =>
    have hnot : key ∉ schema.names := by
      rw [List.find?_eq_none] at hfind
      intro hmem
      obtain ⟨k, hk, hname⟩ := List.mem_map.mp hmem
      exact hfind k hk (beq_iff_eq.mpr hname)
    rw [if_neg (by rwa [← hinf.mem]), Option.map_none]
  | some k =>
    obtain ⟨hname, i, hi, hget, -⟩ := List.find?_eq_some_iff_getElem.mp hfind
    have hk : schema.keys[i]? = some k := by rw [List.getElem?_eq_getElem hi, hget]
    have hkey : k.name = key := beq_iff_eq.mp hname
    have hmem : key ∈ fields.map Prod.fst := by
      rw [← hinf.mem, ← hkey]
      exact List.mem_map_of_mem (List.mem_of_getElem? hk)
    have hsigil := hinf.sigil i k hk
    rw [hkey] at hsigil
    rw [if_pos hmem, hsigil, Option.map_some, ((finalize_keys h hfin).2 i k hk).2.2, hkey]
    rfl

theorem resolveSigil_ne_panic (state : KeyState) (policy : ConflictPolicy) : state.resolveSigil policy ≠ .panic := by
  unfold KeyState.resolveSigil
  cases policy <;> split_ifs <;> exact fun h => by cases h

/-- A schema is inferred, or the texts of some key do not resolve to a sigil. -/
theorem finalize_cases (h : acc.Observed fields) (policy : ConflictPolicy) :
    ((∀ key ∈ fields.map Prod.fst, ∃ sigil, (columnState fields key).resolveSigil policy = .ok sigil) ∧
        ∃ schema, acc.finalize policy = .ok schema) ∨
      (∃ key ∈ fields.map Prod.fst, ∃ e, (columnState fields key).resolveSigil policy = .err e) ∧
        ∃ e, acc.finalize policy = .err e := by
  -- the states are those of the names
  have hzip : acc.keys.zip acc.keyStates = acc.keys.map fun k => (k, columnState fields k.name) := by
    rw [h.states, InferredSchema.names, List.map_map, List.map_prod_left_eq_zip]
    rfl
  have hmem : ∀ key, key ∈ fields.map Prod.fst ↔ ∃ k ∈ acc.keys, k.name = key := fun key => by
    rw [← h.mem, InferredSchema.names, List.mem_map]
  have hcases := mapM_cases (f := fun e : InferredKey × KeyState => (do
      let sigil ← e.2.resolveSigil policy
      .ok { e.1 with sigil := sigil, optional := decide (e.2.presentCount < acc.totalRecords) } : Res InferredKey))
    (l := acc.keys.zip acc.keyStates) fun e _ he => by
      cases hres : e.2.resolveSigil policy with
      | panic => exact resolveSigil_ne_panic _ _ hres
      | ok sigil =>
        rw [hres] at he
        cases he
      | err e' =>
        rw [hres] at he
        cases he
  rw [InferredSchema.finalize]
  rcases hcases with ⟨hall, keys, hkeys⟩ | ⟨⟨e, he, err, herr⟩, err', hfail⟩
  · refine .inl ⟨fun key hkey => ?_, _, bind_eq_ok.mpr ⟨keys, hkeys, rfl⟩⟩
    obtain ⟨k, hk, rfl⟩ := (hmem key).mp hkey
    rw [hzip] at hall
    obtain ⟨_, hok⟩ := hall _ (List.mem_map_of_mem hk)
    obtain ⟨sigil, hsigil, -⟩ := bind_eq_ok.mp hok
    exact ⟨sigil, hsigil⟩
  · rw [hzip] at he
    obtain ⟨k, hk, rfl⟩ := List.mem_map.mp he
    refine .inr ⟨⟨k.name, (hmem _).mpr ⟨k, hk, rfl⟩, ?_⟩, err', by rw [hfail, err_bind]⟩
    cases hres : (columnState fields k.name).resolveSigil policy with
    | panic => exact absurd hres (resolveSigil_ne_panic _ _)
    | err e => exact ⟨e, rfl⟩
    | ok sigil =>
      rw [hres] at herr
      cases herr

end

/-! ## Another order -/

theorem observed_records (records : List (List (String × String))) :
    (records.foldl InferredSchema.merge InferredSchema.new).Observed records.flatten := by
  have h := InferredSchema.Observed.new.merges records
  rwa [List.nil_append] at h

theorem columnEntry_perm {fields fields' : List (String × String)} (h : fields.Perm fields') {policy : ConflictPolicy}
    (hpolicy : policy ≠ .firstWins) (total : ℕ) (key : String) :
    columnEntry fields total policy key = columnEntry fields' total policy key := by
  have hstate := columnState_perm h key
  have hsigil : (columnState fields key).resolveSigil policy = (columnState fields' key).resolveSigil policy := by
    rw [← resolveSigil_unordered hpolicy, hstate, resolveSigil_unordered hpolicy]
  have hcount : (columnState fields key).presentCount = (columnState fields' key).presentCount := by
    have h := congrArg KeyState.presentCount hstate
    exact h
  rw [columnEntry, columnEntry, hsigil, hcount]
  exact if_congr (h.map Prod.fst).mem_iff rfl rfl

/-- The records in another order. -/
theorem inferRecords_perm {policy : ConflictPolicy} (hpolicy : policy ≠ .firstWins)
    {records records' : List (List (String × String))} (h : records.Perm records') :
    SameInference (inferRecords policy records) (inferRecords policy records') := by
  have hflat : records.flatten.Perm records'.flatten := h.flatten
  have hresolve : ∀ key, (columnState records.flatten key).resolveSigil policy =
      (columnState records'.flatten key).resolveSigil policy := fun key => by
    rw [← resolveSigil_unordered hpolicy, columnState_perm hflat, resolveSigil_unordered hpolicy]
  rcases finalize_cases (observed_records records) policy with ⟨hall, s, hs⟩ | ⟨⟨key, hkey, e, he⟩, e₁, hfail⟩ <;>
    rcases finalize_cases (observed_records records') policy with ⟨hall', t, ht⟩ | ⟨⟨key', hkey', e', he'⟩, e₂, hfail'⟩
  · refine .inl ⟨s, t, hs, ht, fun key => ?_⟩
    rw [finalize_entry (observed_records records) hs, finalize_entry (observed_records records') ht,
      totalRecords_merges, totalRecords_merges, h.length_eq, columnEntry_perm hflat hpolicy]
  · obtain ⟨sigil, hsigil⟩ := hall key' ((hflat.map Prod.fst).mem_iff.mpr hkey')
    rw [← hresolve, hsigil] at he'
    cases he'
  · obtain ⟨sigil, hsigil⟩ := hall' key ((hflat.map Prod.fst).mem_iff.mp hkey)
    rw [hresolve, hsigil] at he
    cases he
  · exact .inr ⟨⟨e₁, hfail⟩, e₂, hfail'⟩

namespace JsonIn

variable {floatText : F64 → String} {args : ImportArgs}

theorem atDepth_ne_panic {α : Type} (depthLimit depth : ℕ) {x : Res α} (h : x ≠ .panic) :
    atDepth depthLimit depth x ≠ .panic := by
  rw [atDepth]
  split
  · exact fun h => by cases h
  · exact h

mutual

theorem flattenFields_ne_panic (depthLimit : ℕ) : ∀ (fields : List (String × JsonValue)) (depth : ℕ),
    flattenFields floatText depthLimit fields depth ≠ .panic
  | [], _ => fun h => by cases h
  | (k, v) :: rest, depth => by
    have hv := flattenField_ne_panic depthLimit k v depth
    have hrest := flattenFields_ne_panic depthLimit rest depth
    rw [flattenFields]
    cases hfield : flattenField floatText depthLimit k v depth with
    | panic => exact absurd hfield hv
    | err e => exact fun h => by cases h
    | ok here =>
      cases hfields : flattenFields floatText depthLimit rest depth with
      | panic => exact absurd hfields hrest
      | err e => exact fun h => by cases h
      | ok tail => exact fun h => by cases h

theorem flattenField_ne_panic (depthLimit : ℕ) (k : String) : ∀ (v : JsonValue) (depth : ℕ),
    flattenField floatText depthLimit k v depth ≠ .panic
  | .null, _ | .bool _, _ | .number _, _ | .string _, _ | .array _, _ => fun h => by cases h
  | .object fields, depth => by
    have hfields := atDepth_ne_panic depthLimit (depth + 1) (flattenFields_ne_panic depthLimit fields (depth + 1))
    rw [flattenField]
    cases hnested : atDepth depthLimit (depth + 1) (flattenFields floatText depthLimit fields (depth + 1)) with
    | panic => exact absurd hnested hfields
    | err e => exact fun h => by cases h
    | ok nested => exact fun h => by cases h

end

theorem flattenObject_ne_panic (depthLimit : ℕ) (v : JsonValue) (depth : ℕ) :
    flattenObject floatText depthLimit v depth ≠ .panic := by
  refine atDepth_ne_panic depthLimit depth ?_
  cases v with
  | object fields => exact flattenFields_ne_panic depthLimit fields depth
  | null | bool _ | number _ | string _ | array _ => exact fun h => by cases h

/-- The schema of a JSON array is that of its records, once they are flattened. -/
theorem inferSchema_records (records : List JsonValue) : inferSchema floatText (.array records) args =
    flattenRecords floatText args records >>= inferRecords args.conflict := by
  rw [inferSchema, foldlM_values, flattenRecords]
  cases records.mapM fun record => flattenObject floatText args.maxDepth record 0 <;> rfl

theorem inferSchema_perm (hpolicy : args.conflict ≠ .firstWins) {records records' : List JsonValue}
    (h : records.Perm records') : SameInference (inferSchema floatText (.array records) args)
      (inferSchema floatText (.array records') args) := by
  have hsafe : ∀ record : JsonValue, flattenObject floatText args.maxDepth record 0 ≠ .panic :=
    fun record => flattenObject_ne_panic args.maxDepth record 0
  rw [inferSchema_records, inferSchema_records, flattenRecords, flattenRecords]
  rcases mapM_cases fun record (_ : record ∈ records) => hsafe record with ⟨hall, kvs, hkvs⟩ | ⟨⟨record, hrecord, e, he⟩, e₁, hfail⟩ <;>
    rcases mapM_cases fun record (_ : record ∈ records') => hsafe record with
      ⟨hall', kvs', hkvs'⟩ | ⟨⟨record', hrecord', e', he'⟩, e₂, hfail'⟩
  · rw [hkvs, hkvs', ok_bind, ok_bind]
    refine inferRecords_perm hpolicy ?_
    rw [flattenRecords_eq_ok hkvs, flattenRecords_eq_ok hkvs']
    exact h.map _
  · obtain ⟨kv, hkv⟩ := hall record' (h.mem_iff.mpr hrecord')
    rw [he'] at hkv
    cases hkv
  · obtain ⟨kv, hkv⟩ := hall' record (h.mem_iff.mp hrecord)
    rw [he] at hkv
    cases hkv
  · rw [hfail, hfail']
    exact .inr ⟨⟨e₁, rfl⟩, e₂, rfl⟩

end JsonIn

/-- Under `Error` and `CoerceString` the order of the records plays no part, those of a JSON array included. -/
theorem inference_order :
    (∀ (policy : ConflictPolicy) (records records' : List (List (String × String))), policy ≠ .firstWins →
      records.Perm records' → SameInference (inferRecords policy records) (inferRecords policy records')) ∧
    ∀ (floatText : F64 → String) (args : ImportArgs) (records records' : List JsonValue), args.conflict ≠ .firstWins →
      records.Perm records' → SameInference (JsonIn.inferSchema floatText (.array records) args)
        (JsonIn.inferSchema floatText (.array records') args) :=
  ⟨fun _ _ _ hpolicy h => inferRecords_perm hpolicy h, fun _ _ _ _ hpolicy h => JsonIn.inferSchema_perm hpolicy h⟩

/-- An integer and a text in either order: a string under `CoerceString`, an error under `Error`. -/
theorem inference_order_mixed :
    SameInference (inferRecords .coerceString [[("a", "1")], [("a", "x")]]) (inferRecords .coerceString [[("a", "x")], [("a", "1")]]) ∧
      SameInference (JsonIn.inferSchema (fun _ => "") (.array [.object [("a", .bool true)], .null]) ⟨.error, false, 64⟩)
        (JsonIn.inferSchema (fun _ => "") (.array [.null, .object [("a", .bool true)]]) ⟨.error, false, 64⟩) :=
  ⟨inference_order.1 .coerceString _ _ (by decide) (.swap _ _ _),
    inference_order.2 (fun _ => "") ⟨.error, false, 64⟩ _ _ (by decide) (.swap _ _ _)⟩

end Nyxis
