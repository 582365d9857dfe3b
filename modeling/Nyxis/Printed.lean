import Nyxis.Parser

/-!
# Printed — the token sequences of fields

`PrintsFile` says which token sequences are a list of fields, with or without the optional colons and commas.  The
parser is the inverse: it accepts these sequences only, and all of them whose objects nest at most 64 deep.

* `parseFile_printed`: what the parser does with a printed list of fields.
* `printed_of_parseFile`: what it accepts is one.
* `nesting_bounded_iff`: lists are not counted, so the limit is not one on the nesting of all values.
-/

namespace Nyxis

open Lib Lib.Outcome

/-! ## Printing -/

/-- A separator that may be left out. -/
def optionalToken (t : Token) (there : Bool) : List Token := if there then [t] else []

mutual

/-- The tokens are the value. -/
inductive PrintsValue : Value → List Token → Prop
  | scalar {v : Value} {t : Token} (h : t.value = some v) : PrintsValue v [t]
  | object {fields : List Field} {ts : List Token} (h : PrintsFields fields ts) :
    PrintsValue (.object fields) (.lBrace :: (ts ++ [.rBrace]))
  | list {elems : List Value} {ts : List Token} (h : PrintsElems elems ts) :
    PrintsValue (.list elems) (.lBracket :: (ts ++ [.rBracket]))

inductive PrintsField : Field → List Token → Prop
  | mk {key : String} {v : Value} {ts : List Token} (colon : Bool) (h : PrintsValue v ts) :
    PrintsField (.mk key v) (.ident key :: (optionalToken .colon colon ++ ts))

/-- The fields of an object. -/
inductive PrintsFields : List Field → List Token → Prop
  | nil : PrintsFields [] []
  | cons {f : Field} {fields : List Field} {ts ts' : List Token} (hf : PrintsField f ts) (comma : Bool)
    (h : PrintsFields fields ts') : PrintsFields (f :: fields) (ts ++ (optionalToken .comma comma ++ ts'))

/-- The elements of a list. -/
inductive PrintsElems : List Value → List Token → Prop
  | nil : PrintsElems [] []
  | cons {v : Value} {elems : List Value} {ts ts' : List Token} (hv : PrintsValue v ts) (comma : Bool)
    (h : PrintsElems elems ts') : PrintsElems (v :: elems) (ts ++ (optionalToken .comma comma ++ ts'))

end

/-- The tokens are the fields; nothing is read behind the end mark. -/
inductive PrintsFile : List Field → List Token → Prop
  | nil : PrintsFile [] []
  | eof (rest : List Token) : PrintsFile [] (.eof :: rest)
  | cons {f : Field} {fields : List Field} {ts ts' : List Token} (hf : PrintsField f ts) (h : PrintsFile fields ts') :
    PrintsFile (f :: fields) (ts ++ ts')

/-! ## Nesting -/

mutual

/-- How deep objects nest in a value. -/
def Value.objectDepth : Value → ℕ
  | .object fields => fieldsObjectDepth fields + 1
  | .list elems => elemsObjectDepth elems
  | _ => 0

def fieldsObjectDepth : List Field → ℕ
  | [] => 0
  | .mk _ v :: fields => max v.objectDepth (fieldsObjectDepth fields)

def elemsObjectDepth : List Value → ℕ
  | [] => 0
  | v :: elems => max v.objectDepth (elemsObjectDepth elems)

end

mutual

/-- How deep objects and lists nest in a value. -/
def Value.nesting : Value → ℕ
  | .object fields => fieldsNesting fields + 1
  | .list elems => elemsNesting elems + 1
  | _ => 0

def fieldsNesting : List Field → ℕ
  | [] => 0
  | .mk _ v :: fields => max v.nesting (fieldsNesting fields)

def elemsNesting : List Value → ℕ
  | [] => 0
  | v :: elems => max v.nesting (elemsNesting elems)

end

mutual

/-- Every list in the value has elements of one kind. -/
def Value.Uniform : Value → Prop
  | .object fields => FieldsUniform fields
  | .list elems => (∀ v ∈ elems, ∀ w ∈ elems, v.sigilName = w.sigilName) ∧ ElemsUniform elems
  | _ => True

def FieldsUniform : List Field → Prop
  | [] => True
  | .mk _ v :: fields => v.Uniform ∧ FieldsUniform fields

def ElemsUniform : List Value → Prop
  | [] => True
  | v :: elems => v.Uniform ∧ ElemsUniform elems

end

/-! ## Single tokens -/

/-- The token starts a value. -/
def Token.StartsValue (t : Token) : Prop := t = .lBrace ∨ t = .lBracket ∨ t.value.isSome = true

theorem PrintsValue.starts {v : Value} {ts : List Token} (h : PrintsValue v ts) :
    ∃ t ts', ts = t :: ts' ∧ t.StartsValue := by
  cases h with
  | scalar h => exact ⟨_, _, rfl, .inr (.inr (by rw [h]; rfl))⟩
  | object h => exact ⟨_, _, rfl, .inl rfl⟩
  | list h => exact ⟨_, _, rfl, .inr (.inl rfl)⟩

theorem Token.StartsValue.ne {t t' : Token} (h : t.StartsValue) (hb : t' ≠ .lBrace) (hk : t' ≠ .lBracket)
    (hv : t'.value = none) : t ≠ t' := by
  rintro rfl
  rcases h with rfl | rfl | h
  · exact hb rfl
  · exact hk rfl
  · rw [hv] at h
    cases h

namespace Parser

@[simp] theorem peek_cons (t : Token) (ts : List Token) (depth : ℕ) : peek ⟨t :: ts, depth⟩ = t := rfl
@[simp] theorem peek_nil (depth : ℕ) : peek ⟨[], depth⟩ = .eof := rfl
@[simp] theorem advance_cons (t : Token) (ts : List Token) (depth : ℕ) : advance ⟨t :: ts, depth⟩ = ⟨ts, depth⟩ := rfl

theorem expect_cons (debug : Token → String) (t : Token) (ts : List Token) (depth : ℕ) :
    expect debug t ⟨t :: ts, depth⟩ = .ok ⟨ts, depth⟩ := if_pos rfl

/-- A separator is gone past, whether it is there or not. -/
theorem optional_append {t : Token} {there : Bool} {ts : List Token} {depth : ℕ} (h : ts.headD .eof ≠ t) :
    optional t ⟨optionalToken t there ++ ts, depth⟩ = ⟨ts, depth⟩ := by
  cases there with
  | true => exact if_pos rfl
  | false => exact if_neg h

/-! ## Printed fields are accepted -/

section

variable (debug : Token → String)

/-- What the parser does with a value or some fields: it goes past them, or it meets an object too deep. -/
def limited {α : Type} (depth inner : ℕ) (a : α) (rest : List Token) : Res (α × Parser) :=
  if depth + inner ≤ MAX_DEPTH then .ok (a, ⟨rest, depth⟩) else .err .recursionLimit

/-- A part that is too deep is the error of the whole; behind another one the whole is as deep as its parts. -/
theorem limited_bind {α β : Type} {depth m n : ℕ} {a : α} {b : β} {rest rest' : List Token} {k : α × Parser → Res (β × Parser)}
    (h : depth + m ≤ MAX_DEPTH → k (a, ⟨rest, depth⟩) = limited depth n b rest') :
    (limited depth m a rest >>= k) = limited depth (max m n) b rest' := by
  unfold limited
  by_cases hm : depth + m ≤ MAX_DEPTH
  · rw [if_pos hm, ok_bind, h hm, limited]
    refine if_congr ?_ rfl rfl
    omega
  · rw [if_neg hm, err_bind, if_neg (by omega)]

mutual

theorem parseValue_printed : ∀ {v : Value} {ts : List Token}, PrintsValue v ts → v.Uniform → ∀ {nested depth : ℕ} (rest : List Token),
    ts.length ≤ nested → depth ≤ MAX_DEPTH →
      parseValue debug nested ⟨ts ++ rest, depth⟩ = limited depth v.objectDepth v rest
  | v, _, .scalar (t := t) h, _, nested, depth, rest, hlen, hdepth => by
    obtain ⟨nested, rfl⟩ := Nat.exists_eq_add_of_le' hlen
    have hzero : v.objectDepth = 0 := by
      cases t <;> cases h <;> rfl
    rw [limited, hzero, if_pos (by omega), List.singleton_append, List.length_singleton, parseValue]
    cases t <;> cases h <;> rfl
  | _, _, @PrintsValue.object fields ts h, hu, nested, depth, rest, hlen, hdepth => by
    rw [List.length_cons, List.length_append, List.length_singleton] at hlen
    obtain ⟨nested, rfl⟩ := Nat.exists_eq_add_of_le' (show 1 ≤ nested by omega)
    have htokens : Token.lBrace :: (ts ++ [.rBrace]) ++ rest = .lBrace :: (ts ++ .rBrace :: rest) := by simp
    rw [htokens, parseValue, peek_cons]
    dsimp only
    rw [parseObject]
    dsimp only
    by_cases hlimit : depth + 1 ≤ MAX_DEPTH
    · rw [ensure_of (by omega), ok_bind, expect_cons, ok_bind,
        objectLoop_printed h hu rest (by omega) (by rw [List.length_append]; omega) hlimit, List.nil_append]
      unfold limited
      by_cases hfits : depth + 1 + fieldsObjectDepth fields ≤ MAX_DEPTH
      · rw [if_pos hfits, ok_bind, if_pos (by rw [Value.objectDepth]; omega)]
        dsimp only
        rw [expect_cons, ok_bind]
        rfl
      · rw [if_neg hfits, err_bind, if_neg (by rw [Value.objectDepth]; omega)]
    · rw [ensure_not (by omega), err_bind, limited, if_neg (by rw [Value.objectDepth]; omega)]
  | _, _, @PrintsValue.list elems ts h, hu, nested, depth, rest, hlen, hdepth => by
    rw [List.length_cons, List.length_append, List.length_singleton] at hlen
    obtain ⟨nested, rfl⟩ := Nat.exists_eq_add_of_le' (show 1 ≤ nested by omega)
    have htokens : Token.lBracket :: (ts ++ [.rBracket]) ++ rest = .lBracket :: (ts ++ .rBracket :: rest) := by simp
    rw [htokens, parseValue, peek_cons]
    dsimp only
    rw [parseList, expect_cons, ok_bind]
    dsimp only
    rw [listLoop_printed h hu.2 hu.1 (fun n hn => by cases hn) rest (by omega) (by rw [List.length_append]; omega) hdepth,
      List.nil_append]
    unfold limited
    rw [Value.objectDepth]
    split
    · rw [ok_bind]
      dsimp only
      rw [expect_cons, ok_bind]
    · rfl

theorem parseField_printed : ∀ {f : Field} {ts : List Token}, PrintsField f ts → f.value.Uniform → ∀ {nested depth : ℕ}
    (rest : List Token), ts.length ≤ nested + 1 → depth ≤ MAX_DEPTH →
      parseField debug (parseValue debug nested) ⟨ts ++ rest, depth⟩ = limited depth f.value.objectDepth f rest
  | .mk key v, _, @PrintsField.mk _ _ ts colon h, hu, nested, depth, rest, hlen, hdepth => by
    rw [List.length_cons, List.length_append] at hlen
    have hhead : (ts ++ rest).headD .eof ≠ .colon := by
      obtain ⟨t, ts', rfl, ht⟩ := h.starts
      exact ht.ne Token.noConfusion Token.noConfusion rfl
    rw [parseField, List.cons_append, peek_cons]
    dsimp only
    rw [advance_cons, List.append_assoc, optional_append hhead, parseValue_printed h hu rest (by omega) hdepth]
    unfold limited
    rw [show (Field.mk key v).value = v from rfl]
    split <;> rfl

theorem objectLoop_printed : ∀ {fields : List Field} {ts : List Token}, PrintsFields fields ts → FieldsUniform fields →
    ∀ {nested fuel depth : ℕ} {acc : List Field} (rest : List Token), ts.length ≤ nested → ts.length < fuel → depth ≤ MAX_DEPTH →
      objectLoop debug (parseValue debug nested) fuel acc ⟨ts ++ .rBrace :: rest, depth⟩ =
        limited depth (fieldsObjectDepth fields) (acc ++ fields) (.rBrace :: rest)
  | _, _, .nil, _, nested, fuel, depth, acc, rest, hlen, hfuel, hdepth => by
    obtain ⟨fuel, rfl⟩ := Nat.exists_eq_add_of_le' hfuel
    rw [limited, fieldsObjectDepth, if_pos (by omega), List.append_nil]
    rfl
  | _, _, @PrintsFields.cons (.mk key v) fields ts ts' hf comma h, hu, nested, fuel, depth, acc, rest, hlen,
      hfuel, hdepth => by
    have hhead : (ts' ++ .rBrace :: rest).headD .eof ≠ .comma := by
      cases h with
      | nil => exact Token.noConfusion
      | cons hf => cases hf; exact Token.noConfusion
    obtain ⟨fuel, rfl⟩ := Nat.exists_eq_add_of_le' (show 1 ≤ fuel by omega)
    rw [List.length_append, List.length_append] at hlen hfuel
    have hpos : 0 < ts.length := by
      cases hf
      exact Nat.succ_pos _
    have hkey : ¬ (peek ⟨ts ++ (optionalToken .comma comma ++ ts') ++ .rBrace :: rest, depth⟩ = .rBrace ∨
        peek ⟨ts ++ (optionalToken .comma comma ++ ts') ++ .rBrace :: rest, depth⟩ = .eof) := by
      cases hf
      rintro (hp | hp) <;> cases hp
    rw [objectLoop, if_neg hkey, List.append_assoc, parseField_printed hf hu.1 _ (by omega) hdepth, fieldsObjectDepth]
    refine limited_bind fun hfits => ?_
    dsimp only
    rw [List.append_assoc, optional_append hhead, objectLoop_printed h hu.2 rest (by omega) (by omega) hdepth, List.append_assoc,
      List.singleton_append]

theorem listLoop_printed : ∀ {elems : List Value} {ts : List Token}, PrintsElems elems ts → ElemsUniform elems →
    (∀ v ∈ elems, ∀ w ∈ elems, v.sigilName = w.sigilName) → ∀ {tag : Option String},
    (∀ n, tag = some n → ∀ v ∈ elems, v.sigilName = n) →
    ∀ {nested fuel depth : ℕ} {acc : List Value} (rest : List Token), ts.length ≤ nested → ts.length < fuel → depth ≤ MAX_DEPTH →
      listLoop (parseValue debug nested) fuel tag acc ⟨ts ++ .rBracket :: rest, depth⟩ =
        limited depth (elemsObjectDepth elems) (acc ++ elems) (.rBracket :: rest)
  | _, _, .nil, _, _, tag, _, nested, fuel, depth, acc, rest, hlen, hfuel, hdepth => by
    obtain ⟨fuel, rfl⟩ := Nat.exists_eq_add_of_le' hfuel
    rw [limited, elemsObjectDepth, if_pos (by omega), List.append_nil]
    rfl
  | _, _, @PrintsElems.cons v elems ts ts' hv comma h, hu, hkind, tag, htag, nested, fuel, depth, acc,
      rest, hlen, hfuel, hdepth => by
    have hhead : (ts' ++ .rBracket :: rest).headD .eof ≠ .comma := by
      cases h with
      | nil => exact Token.noConfusion
      | cons hv =>
        obtain ⟨t, ts'', rfl, ht⟩ := hv.starts
        exact ht.ne Token.noConfusion Token.noConfusion rfl
    obtain ⟨fuel, rfl⟩ := Nat.exists_eq_add_of_le' (show 1 ≤ fuel by omega)
    rw [List.length_append, List.length_append] at hlen hfuel
    obtain ⟨t, ts'', hts, ht⟩ := hv.starts
    have hpos : 0 < ts.length := by
      rw [hts]
      exact Nat.succ_pos _
    have hkey : ¬ (peek ⟨ts ++ (optionalToken .comma comma ++ ts') ++ .rBracket :: rest, depth⟩ = .rBracket ∨
        peek ⟨ts ++ (optionalToken .comma comma ++ ts') ++ .rBracket :: rest, depth⟩ = .eof) := by
      rw [hts]
      rintro (hp | hp)
      · exact ht.ne Token.noConfusion Token.noConfusion rfl hp
      · exact ht.ne Token.noConfusion Token.noConfusion rfl hp
    have hsame : tag.all (· == v.sigilName) = true := by
      cases tag with
      | none => rfl
      | some n => exact beq_iff_eq.mpr (htag n rfl v List.mem_cons_self).symm
    rw [listLoop, if_neg hkey, List.append_assoc, parseValue_printed hv hu.1 _ (by omega) hdepth, elemsObjectDepth]
    refine limited_bind fun hfits => ?_
    dsimp only
    rw [ensure_of hsame, ok_bind, List.append_assoc, optional_append hhead,
      listLoop_printed h hu.2 (fun w hw x hx => hkind w (List.mem_cons_of_mem _ hw) x (List.mem_cons_of_mem _ hx))
        (fun n hn w hw => (hkind w (List.mem_cons_of_mem _ hw) v List.mem_cons_self).trans (Option.some.inj hn))
        rest (by omega) (by omega) hdepth, List.append_assoc, List.singleton_append]

end

/-- The fields of a file, one after the other. -/
theorem fileLoop_printed : ∀ {fields : List Field} {ts : List Token}, PrintsFile fields ts → FieldsUniform fields →
    ∀ {nested fuel : ℕ} {acc : List Field}, ts.length ≤ nested → ts.length < fuel →
      Prod.fst <$> fileLoop debug (parseValue debug nested) fuel acc ⟨ts, 0⟩ =
        if fieldsObjectDepth fields ≤ MAX_DEPTH then .ok (acc ++ fields) else .err .recursionLimit
  | _, _, .nil, _, nested, fuel, acc, hlen, hfuel => by
    obtain ⟨fuel, rfl⟩ := Nat.exists_eq_add_of_le' hfuel
    rw [fieldsObjectDepth, if_pos (Nat.zero_le _), List.append_nil]
    rfl
  | _, _, .eof rest, _, nested, fuel, acc, hlen, hfuel => by
    obtain ⟨fuel, rfl⟩ := Nat.exists_eq_add_of_le' (show 1 ≤ fuel by omega)
    rw [fieldsObjectDepth, if_pos (Nat.zero_le _), List.append_nil]
    rfl
  | _, _, @PrintsFile.cons (.mk key v) fields ts ts' hf h, hu, nested, fuel, acc, hlen, hfuel => by
    obtain ⟨fuel, rfl⟩ := Nat.exists_eq_add_of_le' (show 1 ≤ fuel by omega)
    rw [List.length_append] at hlen hfuel
    have hpos : 0 < ts.length := by
      cases hf
      exact Nat.succ_pos _
    have hkey : ¬ peek ⟨ts ++ ts', 0⟩ = .eof := by
      cases hf
      exact Token.noConfusion
    rw [fileLoop, if_neg hkey, parseField_printed debug hf hu.1 _ (by omega) (Nat.zero_le _), limited, fieldsObjectDepth,
      Nat.zero_add]
    rw [show (Field.mk key v).value = v from rfl]
    by_cases hfits : v.objectDepth ≤ MAX_DEPTH
    · rw [if_pos hfits, ok_bind]
      dsimp only
      rw [fileLoop_printed h hu.2 (by omega) (by omega), List.append_assoc, List.singleton_append]
      refine if_congr ?_ rfl rfl
      omega
    · rw [if_neg hfits, err_bind, if_neg (by omega)]
      rfl

end

/-! ## What is accepted is printed -/

/-- What is known of a value that has been read. -/
structure ReadValue (p : Parser) (v : Value) (p' : Parser) : Prop where
  printed : ∃ ts, p.rest = ts ++ p'.rest ∧ PrintsValue v ts
  depth : p'.depth = p.depth
  uniform : v.Uniform
  limit : p.depth ≤ MAX_DEPTH → p.depth + v.objectDepth ≤ MAX_DEPTH

/-- `value` reads values. -/
def ReadsValues (value : Parser → Res (Value × Parser)) : Prop := ∀ p v p', value p = .ok (v, p') → ReadValue p v p'

/-- The next token is there to be taken, where it is not the end mark. -/
theorem rest_of_peek {p : Parser} {t : Token} (h : p.peek = t) (ht : t ≠ .eof) : p.rest = t :: p.advance.rest := by
  obtain ⟨rest, depth⟩ := p
  cases rest with
  | nil => exact absurd h.symm ht
  | cons t' rest =>
    cases h
    rfl

theorem expect_eq_ok {debug : Token → String} {t : Token} {p p' : Parser} (ht : t ≠ .eof) (h : expect debug t p = .ok p') :
    p.rest = t :: p'.rest ∧ p'.depth = p.depth := by
  unfold expect at h
  split at h
  · rename_i hpeek
    cases h
    exact ⟨rest_of_peek hpeek ht, rfl⟩
  · cases h

theorem optional_rest {t : Token} (ht : t ≠ .eof) (p : Parser) :
    ∃ there, p.rest = optionalToken t there ++ (optional t p).rest ∧ (optional t p).depth = p.depth := by
  unfold optional
  by_cases h : p.peek = t
  · rw [if_pos h]
    exact ⟨true, rest_of_peek h ht, rfl⟩
  · rw [if_neg h]
    exact ⟨false, rfl, rfl⟩

section

variable {debug : Token → String} {value : Parser → Res (Value × Parser)} (hvalue : ReadsValues value)

include hvalue

theorem parseField_reads {p p' : Parser} {f : Field} (h : parseField debug value p = .ok (f, p')) :
    (∃ ts, p.rest = ts ++ p'.rest ∧ PrintsField f ts) ∧ p'.depth = p.depth ∧ f.value.Uniform ∧
      (p.depth ≤ MAX_DEPTH → p.depth + f.value.objectDepth ≤ MAX_DEPTH) := by
  unfold parseField at h
  split at h
  · rename_i key hpeek
    obtain ⟨⟨v, q⟩, hv, h⟩ := bind_eq_ok.mp h
    cases h
    obtain ⟨there, hrest, hdepth⟩ := optional_rest (t := .colon) Token.noConfusion p.advance
    obtain ⟨⟨ts, hts, hprints⟩, hd, hu, hlimit⟩ := hvalue _ _ _ hv
    rw [hdepth] at hd hlimit
    refine ⟨⟨_, ?_, .mk there hprints⟩, hd, hu, hlimit⟩
    rw [rest_of_peek hpeek Token.noConfusion, hrest, hts, List.cons_append, List.append_assoc]
  · cases h

theorem objectLoop_reads : ∀ {fuel : ℕ} {acc fields : List Field} {p p' : Parser},
    objectLoop debug value fuel acc p = .ok (fields, p') → ∃ more ts, fields = acc ++ more ∧ p.rest = ts ++ p'.rest ∧
      PrintsFields more ts ∧ p'.depth = p.depth ∧ FieldsUniform more ∧
      (p.depth ≤ MAX_DEPTH → p.depth + fieldsObjectDepth more ≤ MAX_DEPTH)
  | 0, _, _, _, _, h => by cases h
  | fuel + 1, acc, fields, p, p', h => by
    unfold objectLoop at h
    split at h
    · cases h
      exact ⟨[], [], (List.append_nil _).symm, rfl, .nil, rfl, trivial, id⟩
    · obtain ⟨⟨⟨key, v⟩, q⟩, hf, h⟩ := bind_eq_ok.mp h
      dsimp only at h
      obtain ⟨⟨ts, hts, hprints⟩, hd, hu, hlimit⟩ := parseField_reads hvalue hf
      obtain ⟨there, hrest, hdepth⟩ := optional_rest (t := .comma) Token.noConfusion q
      obtain ⟨more, ts', hmore, hts', hprints', hd', hu', hlimit'⟩ := objectLoop_reads h
      refine ⟨_, _, by rw [hmore, List.append_assoc]; rfl, ?_, .cons hprints there hprints', ?_, ⟨hu, hu'⟩, fun hp => ?_⟩
      · rw [hts, hrest, hts', List.append_assoc, List.append_assoc]
      · rw [hd', hdepth, hd]
      · rw [hdepth, hd] at hlimit'
        have hone := hlimit hp
        have hmore := hlimit' hp
        rw [fieldsObjectDepth]
        rw [Field.value] at hone
        omega

theorem listLoop_reads : ∀ {fuel : ℕ} {tag : Option String} {acc elems : List Value} {p p' : Parser},
    listLoop value fuel tag acc p = .ok (elems, p') → ∃ more ts, elems = acc ++ more ∧ p.rest = ts ++ p'.rest ∧
      PrintsElems more ts ∧ p'.depth = p.depth ∧ ElemsUniform more ∧
      (∃ n, (tag.all (· == n) = true ∨ more = []) ∧ ∀ v ∈ more, v.sigilName = n) ∧
      (p.depth ≤ MAX_DEPTH → p.depth + elemsObjectDepth more ≤ MAX_DEPTH)
  | 0, _, _, _, _, _, h => by cases h
  | fuel + 1, tag, acc, elems, p, p', h => by
    unfold listLoop at h
    split at h
    · cases h
      exact ⟨[], [], (List.append_nil _).symm, rfl, .nil, rfl, trivial, ⟨"", .inr rfl, fun v hv => absurd hv List.not_mem_nil⟩, id⟩
    · obtain ⟨⟨v, q⟩, hv, h⟩ := bind_eq_ok.mp h
      dsimp only at h
      obtain ⟨_, htag, h⟩ := bind_eq_ok.mp h
      rw [ensure_eq_ok] at htag
      obtain ⟨⟨ts, hts, hprints⟩, hd, hu, hlimit⟩ := hvalue _ _ _ hv
      obtain ⟨there, hrest, hdepth⟩ := optional_rest (t := .comma) Token.noConfusion q
      obtain ⟨more, ts', hmore, hts', hprints', hd', hu', ⟨n, hn, hkind⟩, hlimit'⟩ := listLoop_reads h
      refine ⟨_, _, by rw [hmore, List.append_assoc]; rfl, ?_, .cons hprints there hprints', ?_, ⟨hu, hu'⟩,
        ⟨v.sigilName, .inl htag, fun w hw => ?_⟩, fun hp => ?_⟩
      · rw [hts, hrest, hts', List.append_assoc, List.append_assoc]
      · rw [hd', hdepth, hd]
      · rcases List.mem_cons.mp hw with rfl | hw
        · rfl
        · rcases hn with hn | rfl
          · rw [hkind w hw]
            exact (beq_iff_eq.mp hn).symm
          · exact absurd hw List.not_mem_nil
      · rw [hdepth, hd] at hlimit'
        have hone := hlimit hp
        have hmore := hlimit' hp
        rw [elemsObjectDepth]
        omega

end

theorem parseValue_reads (debug : Token → String) : ∀ nested, ReadsValues (parseValue debug nested)
  | 0 => fun p v p' h => by cases h
  | nested + 1 => by
    have ih := parseValue_reads debug nested
    intro p v p' h
    unfold parseValue at h
    split at h
    · obtain ⟨_, hlimit, h⟩ := bind_eq_ok.mp h
      rw [ensure_eq_ok] at hlimit
      obtain ⟨q, hopen, h⟩ := bind_eq_ok.mp h
      obtain ⟨⟨fields, q'⟩, hloop, h⟩ := bind_eq_ok.mp h
      dsimp only at h
      obtain ⟨q'', hclose, h⟩ := bind_eq_ok.mp h
      cases h
      obtain ⟨hq, hqd⟩ := expect_eq_ok Token.noConfusion hopen
      obtain ⟨hq', hqd'⟩ := expect_eq_ok Token.noConfusion hclose
      obtain ⟨more, ts, rfl, hts, hprints, hd, hu, hmore⟩ := objectLoop_reads ih hloop
      dsimp only at hq hqd hlimit
      refine ⟨⟨_, ?_, .object hprints⟩, ?_, hu, fun _ => ?_⟩
      · dsimp only
        rw [hq, hts, hq', List.cons_append, List.append_assoc, List.singleton_append]
      · dsimp only
        rw [hqd', hd, hqd, Nat.add_sub_cancel]
      · have hmore := hmore (by omega)
        rw [Value.objectDepth]
        omega
    · obtain ⟨q, hopen, h⟩ := bind_eq_ok.mp h
      obtain ⟨⟨elems, q'⟩, hloop, h⟩ := bind_eq_ok.mp h
      dsimp only at h
      obtain ⟨q'', hclose, h⟩ := bind_eq_ok.mp h
      cases h
      obtain ⟨hq, hqd⟩ := expect_eq_ok Token.noConfusion hopen
      obtain ⟨hq', hqd'⟩ := expect_eq_ok Token.noConfusion hclose
      obtain ⟨more, ts, rfl, hts, hprints, hd, hu, ⟨n, -, hkind⟩, hlimit⟩ := listLoop_reads ih hloop
      rw [hqd] at hd hlimit
      refine ⟨⟨_, ?_, .list hprints⟩, hqd'.trans hd, ⟨fun v hv w hw => (hkind v hv).trans (hkind w hw).symm, hu⟩, hlimit⟩
      rw [hq, hts, hq', List.cons_append, List.append_assoc, List.singleton_append]
    · split at h
      · rename_i v' hv
        cases h
        have heof : p.peek ≠ .eof := by
          intro heof
          rw [heof] at hv
          cases hv
        refine ⟨⟨_, rest_of_peek rfl heof, .scalar hv⟩, rfl, ?_, ?_⟩
        · cases hpeek : p.peek <;> rw [hpeek] at hv <;> cases hv <;> trivial
        · have hzero : v.objectDepth = 0 := by
            cases hpeek : p.peek <;> rw [hpeek] at hv <;> cases hv <;> rfl
          rw [hzero]
          exact id
      · cases h

theorem fileLoop_reads {debug : Token → String} {value : Parser → Res (Value × Parser)} (hvalue : ReadsValues value) :
    ∀ {fuel : ℕ} {acc fields : List Field} {p p' : Parser}, fileLoop debug value fuel acc p = .ok (fields, p') →
      p.depth ≤ MAX_DEPTH → ∃ more, fields = acc ++ more ∧ PrintsFile more p.rest ∧ FieldsUniform more ∧
        p.depth + fieldsObjectDepth more ≤ MAX_DEPTH
  | 0, _, _, _, _, h, _ => by cases h
  | fuel + 1, acc, fields, p, p', h, hp => by
    unfold fileLoop at h
    split at h
    · rename_i hpeek
      cases h
      refine ⟨[], (List.append_nil _).symm, ?_, trivial, hp⟩
      obtain ⟨rest, depth⟩ := p
      cases rest with
      | nil => exact .nil
      | cons t rest =>
        cases hpeek
        exact .eof rest
    · obtain ⟨⟨⟨key, v⟩, q⟩, hf, h⟩ := bind_eq_ok.mp h
      obtain ⟨⟨ts, hts, hprints⟩, hd, hu, hlimit⟩ := parseField_reads hvalue hf
      obtain ⟨more, hmore, hprints', hu', hlimit'⟩ := fileLoop_reads hvalue h (hd ▸ hp)
      refine ⟨.mk key v :: more, by rw [hmore, List.append_assoc]; rfl, ?_, ⟨hu, hu'⟩, ?_⟩
      · rw [hts]
        exact .cons hprints hprints'
      · rw [hd] at hlimit'
        have hone := hlimit hp
        rw [fieldsObjectDepth]
        rw [Field.value] at hone
        omega

/-! ## The parser is the inverse of printing -/

section

variable (debug : Token → String)

/-- Printed fields are parsed unless their objects nest too deep. -/
theorem parseFile_limited {fields : List Field} {tokens : List Token} (h : PrintsFile fields tokens) (hu : FieldsUniform fields) :
    parseFile debug tokens = if fieldsObjectDepth fields ≤ MAX_DEPTH then .ok fields else .err .recursionLimit := by
  have hloop := @fileLoop_printed debug _ _ h hu _ _ [] (Nat.le_succ tokens.length) (Nat.lt_succ_self tokens.length)
  rwa [List.nil_append] at hloop

/-- What is accepted is printed, and within the limit on objects. -/
theorem printed_of_parseFile {fields : List Field} {tokens : List Token} (h : parseFile debug tokens = .ok fields) :
    PrintsFile fields tokens ∧ FieldsUniform fields ∧ fieldsObjectDepth fields ≤ MAX_DEPTH := by
  obtain ⟨⟨fields', p'⟩, hloop, rfl⟩ := map_eq_ok.mp h
  obtain ⟨more, rfl, hprints, hu, hlimit⟩ := fileLoop_reads (parseValue_reads debug _) hloop (Nat.zero_le _)
  exact ⟨hprints, hu, Nat.le_trans (Nat.le_add_left _ _) hlimit⟩

/-- Parsing inverts printing. -/
theorem parseFile_printed {fields : List Field} {tokens : List Token} (h : PrintsFile fields tokens)
    (hu : FieldsUniform fields) (hdepth : fieldsObjectDepth fields ≤ 64) : parseFile debug tokens = .ok fields :=
  (parseFile_limited debug h hu).trans (if_pos hdepth)

/-- An object in a list in an object, with a colon and commas here and there, and a repeated key. -/
theorem parseFile_printed_nested :
    parseFile (fun _ => "") [.ident "a", .lBrace, .ident "l", .colon, .lBracket, .lBrace, .ident "k", .int 1, .comma, .rBrace,
      .lBrace, .rBrace, .comma, .rBracket, .ident "k", .null, .rBrace, .ident "a", .colon, .bool true, .eof] =
        .ok [.mk "a" (.object [.mk "l" (.list [.object [.mk "k" (.int 1)], .object []]), .mk "k" .null]),
          .mk "a" (.bool true)] := by
  have hkind : ∀ v ∈ [Value.object [.mk "k" (.int 1)], .object []], v.sigilName = "object" := by
    simp [Value.sigilName]
  have huniform : (Value.list [.object [.mk "k" (.int 1)], .object []]).Uniform :=
    ⟨fun v hv w hw => (hkind v hv).trans (hkind w hw).symm, ⟨trivial, trivial⟩, trivial, trivial⟩
  have hinner : PrintsValue (.object [.mk "k" (.int 1)]) [.lBrace, .ident "k", .int 1, .comma, .rBrace] :=
    .object (.cons (.mk false (.scalar rfl)) true .nil)
  have hlist : PrintsValue (.list [.object [.mk "k" (.int 1)], .object []])
      [.lBracket, .lBrace, .ident "k", .int 1, .comma, .rBrace, .lBrace, .rBrace, .comma, .rBracket] :=
    .list (.cons hinner false (.cons (.object .nil) true .nil))
  refine parseFile_printed _ (.cons (.mk false (.object (.cons (.mk true hlist) false (.cons (.mk false (.scalar rfl)) false .nil))))
    (.cons (.mk true (.scalar rfl)) (.eof []))) ?_ (by decide)
  exact ⟨⟨huniform, trivial, trivial⟩, trivial, trivial⟩

/-! ## The limit on nesting -/

/-- What is parsed nests at most 64 deep, and what is printed deeper is rejected for its depth. -/
structure NestingBounded (tokens : List Token) : Prop where
  accepted : ∀ fields, parseFile debug tokens = .ok fields → fieldsNesting fields ≤ 64
  rejected : ∀ fields, PrintsFile fields tokens → FieldsUniform fields → 64 < fieldsNesting fields →
    parseFile debug tokens = .err .recursionLimit

/-- The nesting is bounded exactly where no list is needed to go beyond the limit. -/
theorem nesting_bounded_iff (tokens : List Token) : NestingBounded debug tokens ↔
    ∀ fields, PrintsFile fields tokens → FieldsUniform fields → 64 < fieldsNesting fields → 64 < fieldsObjectDepth fields := by
  constructor
  · intro h fields hprints hu hdeep
    by_contra hlimit
    have haccepted := h.accepted fields ((parseFile_limited debug hprints hu).trans (if_pos (by rw [MAX_DEPTH]; omega)))
    omega
  · intro h
    constructor
    · intro fields hparse
      obtain ⟨hprints, hu, hlimit⟩ := printed_of_parseFile debug hparse
      by_contra hdeep
      have := h fields hprints hu (by omega)
      rw [MAX_DEPTH] at hlimit
      omega
    · intro fields hprints hu hdeep
      rw [parseFile_limited debug hprints hu, if_neg (by have := h fields hprints hu hdeep; rw [MAX_DEPTH]; omega)]

/-- A list in a list, and so on. -/
def nestedList : ℕ → Value
  | 0 => .null
  | n + 1 => .list [nestedList n]

def nestedTokens : ℕ → List Token
  | 0 => [.null]
  | n + 1 => .lBracket :: (nestedTokens n ++ [.rBracket])

theorem nestedTokens_prints : ∀ n, PrintsValue (nestedList n) (nestedTokens n)
  | 0 => .scalar rfl
  | n + 1 => .list (by simpa [optionalToken] using PrintsElems.cons (nestedTokens_prints n) false .nil)

theorem nestedList_nesting : ∀ n, (nestedList n).nesting = n
  | 0 => rfl
  | n + 1 => by
    rw [nestedList, Value.nesting, elemsNesting, elemsNesting, nestedList_nesting n, Nat.max_zero]

theorem nestedList_objectDepth : ∀ n, (nestedList n).objectDepth = 0
  | 0 => rfl
  | n + 1 => by
    rw [nestedList, Value.objectDepth, elemsObjectDepth, elemsObjectDepth, nestedList_objectDepth n, Nat.max_zero]

theorem nestedList_uniform : ∀ n, (nestedList n).Uniform
  | 0 => trivial
  | n + 1 => ⟨fun v hv w hw => by rw [List.mem_singleton.mp hv, List.mem_singleton.mp hw], nestedList_uniform n, trivial⟩

/-- Sixty-five lists, one in the other, are accepted. -/
theorem nesting_not_bounded : ∃ fields, parseFile (fun _ => "") (.ident "k" :: (nestedTokens 65 ++ [.eof])) = .ok fields ∧
    fieldsNesting fields = 65 ∧ ¬ NestingBounded (fun _ => "") (.ident "k" :: (nestedTokens 65 ++ [.eof])) := by
  have hprints : PrintsFile [.mk "k" (nestedList 65)] (.ident "k" :: (nestedTokens 65 ++ [.eof])) :=
    .cons (.mk false (nestedTokens_prints 65)) (.eof [])
  have hnesting : fieldsNesting [.mk "k" (nestedList 65)] = 65 := by
    rw [fieldsNesting, fieldsNesting, nestedList_nesting, Nat.max_zero]
  have hdepth : fieldsObjectDepth [.mk "k" (nestedList 65)] = 0 := by
    rw [fieldsObjectDepth, fieldsObjectDepth, nestedList_objectDepth, Nat.max_zero]
  have hparse := (parseFile_limited (fun _ => "") hprints ⟨nestedList_uniform 65, trivial⟩).trans
    (if_pos (hdepth ▸ Nat.zero_le _))
  refine ⟨_, hparse, hnesting, fun h => ?_⟩
  have := h.accepted _ hparse
  omega

end

end Parser

end Nyxis
