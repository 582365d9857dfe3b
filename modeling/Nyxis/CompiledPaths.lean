import Nyxis.CompiledRoot
import Nyxis.Query

/-!
# CompiledPaths — dotted paths into a compiled file

`Reader.walkPath` looks every part of a path up in the dictionary of the file, while an object inside the
root has the slots of its own keys.  `Walkable` says when the two agree, for a source and all objects in it.

* `paths_read`: the paths into a walkable source are read as the source has them.
-/

namespace Nyxis

open Lib Lib.Outcome

/-! ## What a path reads -/

namespace Reader

variable (r : Reader)

/-- The path getter of a cell's type returns its value; where there is no cell, none of them returns one. -/
def ReadsPath (offset : ℕ) (path : String) : Cell → Prop
  | .absent => r.getI64Path offset path = none' ∧ r.getF64Path offset path = none' ∧
      r.getBoolPath offset path = none' ∧ r.getStrPath offset path = none'
  | .i64 v => r.getI64Path offset path = .ok v
  | .f64 v => r.getF64Path offset path = .ok v
  | .bool v => r.getBoolPath offset path = .ok v
  | .time v => r.getI64Path offset path = .ok v
  | .str s => r.getStrPath offset path = .ok s
  | .null | .binary _ => True

end Reader

namespace Compiler

/-! ## Paths into a source -/

/-- The value of the field with the given key, a macro's when it is one. -/
def lookup (fields : List Field) (key : String) : Option Value :=
  match fields.find? fun f => f.key == key with
  | none => none
  | some f =>
    match resolveMacro fields f.value with
    | .ok v => some v
    | _ => none

/-- What a path leads to. -/
def valueAt : List Field → List String → Option Value
  | _, [] => none
  | fields, [key] => lookup fields key
  | fields, key :: next :: keys =>
    match lookup fields key with
    | some (.object inner) => valueAt inner (next :: keys)
    | _ => none

/-- The file is accepted, and the paths into its record are those of the source: a scalar is read by the
getter of its type, and a path that leads nowhere reads as nothing. -/
def PathsRead (fields : List Field) (file : Slice) : Prop :=
  ∃ r start, Reader.new file = .ok r ∧ r.record 0 = .ok start ∧ ∀ path,
    (∀ v c, valueAt fields (splitDots path) = some v → v.cell = some c → r.ReadsPath start path c) ∧
      (valueAt fields (splitDots path) = none → r.ReadsPath start path .absent)

/-! ## Sources whose paths can be walked -/

/-- The first four bytes of the value are the magic number of an object. -/
def startsObject : Value → Bool
  | .object _ => true
  | .int n | .time n => n.toUInt64.toNat % 2 ^ 32 == MAGIC_OBJ
  | .float f => f.bits.toNat % 2 ^ 32 == MAGIC_OBJ
  | .str s => (utf8 s).length % 2 ^ 32 == MAGIC_OBJ
  | .binary b => b.length % 2 ^ 32 == MAGIC_OBJ
  | .link off => off.toUInt32.toNat == MAGIC_OBJ
  | _ => false

/-- Whether an object seems to start at the place of the first of the given values, which for a null is
the place of the next one; `after` says it of what comes behind them. -/
def objectAhead (scope : List Field) (after : Bool) : List Field → Bool
  | [] => after
  | f :: fields =>
    match resolveMacro scope f.value with
    | .ok .null => objectAhead scope after fields
    | .ok v => startsObject v
    | _ => false

/-- What a walk needs of an object over `n` slots: its values start within the range of the offset table,
nothing but an object looks like one, and strings have their length. -/
structure Plain (n : ℕ) (fields : List Field) (after : Bool) : Prop where
  fits : ∀ stack values, Encoded (encodeValue stack) fields values →
    ∀ i < values.length, valueStart n values i < 65536
  ahead : ∀ (i : ℕ) (f : Field) (v : Value), fields[i]? = some f → resolveMacro fields f.value = .ok v →
    (∀ inner, v ≠ .object inner) → objectAhead fields after (fields.drop i) = false
  short : ∀ f ∈ fields, ∀ s, resolveMacro fields f.value = .ok (.str s) → (utf8 s).length < 2 ^ 32

/-- An object inside the root: its keys are the first ones of the dictionary, in order. -/
inductive Walkable (dict : List String) : List Field → Bool → Prop
  | mk {fields : List Field} {after : Bool} (keys : fields.map Field.key = dict.take fields.length)
      (plain : Plain fields.length fields after)
      (inner : ∀ (i : ℕ) (f : Field) (fs : List Field), fields[i]? = some f →
        resolveMacro fields f.value = .ok (.object fs) →
          Walkable dict fs (objectAhead fields after (fields.drop (i + 1)))) : Walkable dict fields after

/-- The root: between the place of a field and the place its key ranks at, all fields are null. -/
structure WalkableRoot (fields : List Field) : Prop where
  ranked : ∀ (i : ℕ) (f : Field), fields[i]? = some f → ∀ (j : ℕ) (g : Field),
    min i (keyRank fields f) ≤ j → j < max i (keyRank fields f) → fields[j]? = some g →
      resolveMacro fields g.value = .ok .null
  plain : Plain (collectFields fields []).length fields false
  inner : ∀ (i : ℕ) (f : Field) (fs : List Field), fields[i]? = some f →
    resolveMacro fields f.value = .ok (.object fs) →
      Walkable (collectFields fields []) fs (objectAhead fields false (fields.drop (i + 1)))

/-- Values that are encoded with some stack decide where the values start. -/
theorem fits_of_encoded {n s : ℕ} {fields : List Field} {values : List Bytes}
    (h : Encoded (encodeValue s) fields values) (hsize : valueStart n values values.length < 65536) :
    ∀ stack values, Encoded (encodeValue stack) fields values →
      ∀ i < values.length, valueStart n values i < 65536 := by
  intro stack values' h' i _
  obtain rfl := h.unique h'
  exact Nat.lt_of_le_of_lt (valueStart_le n values i) hsize

/-! ## What stands at a place -/

theorem valueStart_succ {n i : ℕ} {values : List Bytes} {b : Bytes} (hb : values[i]? = some b) :
    valueStart n values (i + 1) = valueStart n values i + b.length := by
  rw [valueStart, valueStart, List.take_add_one, hb, List.flatten_append, List.length_append]
  simp only [Option.toList_some, List.flatten_cons, List.flatten_nil, List.append_nil]
  omega

/-- The first four bytes of an encoded value that is not null. -/
theorem startsObject_of_magic {d b : Bytes} {p stack : ℕ} {v : Value} (hat : At d p b)
    (hd : d.length < 2 ^ 63) (hb : encodeValue stack v = .ok b) (hv : v ≠ .null)
    (hmagic : getLE d p 4 = .ok MAGIC_OBJ) : startsObject v = true := by
  have hword : ∀ {n : ℕ}, At d p (leBytes 4 n) → n % 2 ^ 32 = MAGIC_OBJ := by
    intro n hn
    rw [getLE_at hn (leBytes_length 4 n) hd, leNat_leBytes_mod] at hmagic
    exact Outcome.ok.inj hmagic
  cases stack with
  | zero => cases hb
  | succ stack =>
    cases v with
    | int n | time n =>
      cases hb
      exact beq_iff_eq.mpr (hword (hat.take 4))
    | float f =>
      cases hb
      exact beq_iff_eq.mpr (hword (hat.take 4))
    | bool v =>
      cases hb
      have hfour : At d p (leBytes 4 (if v then 1 else 0)) := by
        have htake := hat.take 4
        cases v <;> exact htake
      have hzero := hword hfour
      cases v <;> exact absurd hzero (by decide)
    | str s =>
      cases hb
      rw [padTo, at_append, at_append] at hat
      exact beq_iff_eq.mpr (hword hat.1.1)
    | binary raw =>
      cases hb
      rw [padTo, at_append, at_append] at hat
      exact beq_iff_eq.mpr (hword hat.1.1)
    | link off =>
      cases hb
      rw [at_append] at hat
      have hlink := hword hat.1
      rw [Nat.mod_eq_of_lt off.toUInt32.toNat_lt] at hlink
      exact beq_iff_eq.mpr hlink
    | null => exact absurd rfl hv
    | object fields => rfl
    | list elems =>
      have hlist : At d p (leBytes 4 MAGIC_LIST) := by
        cases elems with
        | nil =>
          cases hb
          simp only [at_append] at hat
          exact hat.1.1.1.1
        | cons v elems =>
          obtain ⟨bufs, -, hb⟩ := bind_eq_ok.mp hb
          cases hb
          simp only [at_append] at hat
          exact hat.1.1.1.1.1
      exact absurd (hword hlist) (by decide)
    | keyword s | expr s => cases hb

/-- What the walk meets in an object: the values of its fields where their keys lead. -/
structure Walks (d : Bytes) (dict : List String) (fields : List Field) (after : Bool) (off n stack : ℕ)
    (values : List Bytes) : Prop where
  small : d.length < 2 ^ 63
  sub : ∀ f ∈ fields, f.key ∈ dict
  encoded : Encoded (encodeValue stack) fields values
  found : ∀ (i : ℕ) (f : Field), fields[i]? = some f →
    resolveSlot d off (dict.idxOf f.key) = .ok (off + valueStart n values i)
  missing : ∀ k ∈ dict, (∀ f ∈ fields, f.key ≠ k) → resolveSlot d off (dict.idxOf k) = none'
  value : ∀ (i : ℕ) (b : Bytes), values[i]? = some b → At d (off + valueStart n values i) b
  behind : getLE d (off + valueStart n values values.length) 4 = .ok MAGIC_OBJ → after = true
  plain : Plain n fields after
  inner : ∀ (i : ℕ) (f : Field) (fs : List Field), fields[i]? = some f →
    resolveMacro fields f.value = .ok (.object fs) →
      Walkable dict fs (objectAhead fields after (fields.drop (i + 1)))

section Walk

variable {d : Bytes} {dict : List String} {fields : List Field} {after : Bool} {off n stack : ℕ}
  {values : List Bytes}

/-- Where the magic number of an object stands at the place of a field, `objectAhead` says so. -/
theorem Walks.ahead_of_magic (h : Walks d dict fields after off n stack values) : ∀ m i, i + m = fields.length →
    getLE d (off + valueStart n values i) 4 = .ok MAGIC_OBJ → objectAhead fields after (fields.drop i) = true
  | 0, i, hi, hmagic => by
    obtain rfl : i = fields.length := by omega
    rw [List.drop_length, objectAhead]
    rw [List.Forall₂.length_eq h.encoded] at hmagic
    exact h.behind hmagic
  | m + 1, i, hi, hmagic => by
    have hlt : i < fields.length := by omega
    obtain ⟨v, b, hv, hb, hat⟩ := h.encoded.value (List.getElem?_eq_getElem hlt)
    rw [List.drop_eq_getElem_cons hlt, objectAhead, hv]
    by_cases hnull : v = .null
    · subst hnull
      have hempty : b = [] := by
        cases stack with
        | zero => cases hb
        | succ stack =>
          cases hb
          rfl
      have hsucc := valueStart_succ (n := n) hat
      rw [hempty, List.length_nil, Nat.add_zero] at hsucc
      exact h.ahead_of_magic m (i + 1) (by omega) (hsucc ▸ hmagic)
    · have hstart := startsObject_of_magic (h.value i b hat) h.small hb hnull hmagic
      split
      · rename_i heq
        cases heq
        exact absurd rfl hnull
      · rename_i heq
        cases heq
        exact hstart
      · rename_i _ hne
        exact absurd rfl (hne v)

/-- The magic number of an object that stands at its place. -/
theorem magic_objectOf {slots : List ℕ} {p : ℕ} (hat : At d p (objectOf n slots values)) (hd : d.length < 2 ^ 63) :
    getLE d p 4 = .ok MAGIC_OBJ := by
  rw [objectOf] at hat
  simp only [at_append] at hat
  exact getLE_leBytes hat.1.1.1.1.1 (by decide) hd

/-- The slots of an object's own keys are their indices. -/
theorem idxOf_ownKeys (hkeys : fields.map Field.key = dict.take fields.length) (hnd : dict.Nodup) :
    (∀ f ∈ fields, f.key ∈ dict) ∧ ∀ (i : ℕ) (f : Field), fields[i]? = some f →
      dict.idxOf f.key = i ∧ (fields.map Field.key).idxOf f.key = i := by
  have hget : ∀ (i : ℕ) (f : Field), fields[i]? = some f → (dict.take fields.length)[i]? = some f.key := by
    intro i f hf
    rw [← hkeys, List.getElem?_map, hf, Option.map_some]
  have hidx : ∀ {l : List String}, l.Nodup → ∀ {i : ℕ} {k : String}, l[i]? = some k → l.idxOf k = i := by
    intro l hl i k hk
    obtain ⟨hi, rfl⟩ := List.getElem?_eq_some_iff.mp hk
    exact hl.idxOf_getElem i hi
  refine ⟨fun f hf => ?_, fun i f hf => ⟨?_, ?_⟩⟩
  · obtain ⟨i, hi⟩ := List.getElem?_of_mem hf
    exact List.mem_of_mem_take (List.mem_of_getElem? (hget i f hi))
  · have hi := (List.getElem?_eq_some_iff.mp hf).1
    have htake := hget i f hf
    rw [List.getElem?_take_of_lt hi] at htake
    exact hidx hnd htake
  · rw [hkeys]
    exact hidx (hnd.sublist (List.take_sublist _ _)) (hget i f hf)

/-- A walkable object inside the root can be walked. -/
theorem Walkable.walks (h : Walkable dict fields after) (hnd : dict.Nodup) (hd : d.length < 2 ^ 63)
    (henc : Encoded (encodeValue stack) fields values)
    (hat : At d off (objectOf fields.length (fieldSlots (fields.map Field.key) fields) values))
    (hbehind : getLE d (off + valueStart fields.length values values.length) 4 = .ok MAGIC_OBJ → after = true) :
    Walks d dict fields after off fields.length stack values := by
  obtain ⟨hkeys, hplain, hinner⟩ := h
  obtain ⟨hsub, hidx⟩ := idxOf_ownKeys hkeys hnd
  have hlen := List.Forall₂.length_eq henc
  have hslots : fieldSlots (fields.map Field.key) fields = List.range fields.length := by
    refine List.ext_getElem (by simp [fieldSlots]) fun i h1 h2 => ?_
    rw [List.length_range] at h2
    simp only [fieldSlots, List.getElem_map, List.getElem_range]
    exact (hidx i _ (List.getElem?_eq_getElem h2)).2
  rw [hslots] at hat
  have hlt : ∀ s ∈ List.range fields.length, s < fields.length := fun s hs => List.mem_range.mp hs
  have hrank : ∀ i ≤ fields.length, (List.range fields.length).countP (fun s => decide (s < i)) = i := by
    intro i hi
    have hsplit := congrArg (List.countP fun s => decide (s < i)) (List.range_add (n := i) (m := fields.length - i))
    rw [Nat.add_sub_cancel' hi, List.countP_append] at hsplit
    have hlow : (List.range i).countP (fun s => decide (s < i)) = (List.range i).length :=
      List.countP_eq_length.mpr fun s hs => decide_eq_true (List.mem_range.mp hs)
    have hhigh : ((List.range (fields.length - i)).map (i + ·)).countP (fun s => decide (s < i)) = 0 := by
      rw [List.countP_eq_zero]
      intro s hs
      obtain ⟨t, -, rfl⟩ := List.mem_map.mp hs
      simp
    rw [hsplit, hlow, hhigh, List.length_range, Nat.add_zero]
  refine ⟨hd, hsub, henc, fun i f hf => ?_, fun k hk hnot => ?_, fun i b hb => at_value hlt hat hb, hbehind,
    hplain, hinner⟩
  · have hi := (List.getElem?_eq_some_iff.mp hf).1
    have hfits := hplain.fits stack values henc i (by omega)
    have hres := resolveSlot_objectOf hlt hat hd List.nodup_range (by simp [hlen]) (List.mem_range.mpr hi)
      (by rw [hrank i (Nat.le_of_lt hi)]; exact hfits)
    rw [hrank i (Nat.le_of_lt hi)] at hres
    rw [(hidx i f hf).1]
    exact hres
  · refine resolveSlot_objectOf_absent hlt hat hd fun hmem => ?_
    have hi := List.mem_range.mp hmem
    refine hnot _ (List.getElem_mem hi) ?_
    have hkey := (hidx _ _ (List.getElem?_eq_getElem hi)).1
    exact (List.idxOf_inj (hsub _ (List.getElem_mem hi))).mp hkey

/-- A key is the key of a field, whose value is looked up, or of none. -/
theorem Walks.lookup (h : Walks d dict fields after off n stack values) (key : String) :
    (∃ (i : ℕ) (f : Field) (v : Value) (b : Bytes), fields[i]? = some f ∧ f.key = key ∧
        Compiler.lookup fields key = some v ∧ resolveMacro fields f.value = .ok v ∧
        encodeValue stack v = .ok b ∧ values[i]? = some b) ∨
      (Compiler.lookup fields key = none ∧ ∀ f ∈ fields, f.key ≠ key) := by
  rw [Compiler.lookup]
  cases hfind : fields.find? fun f => f.key == key with
  | none =>
    refine Or.inr ⟨rfl, fun f hf => ?_⟩
    simpa using List.find?_eq_none.mp hfind f hf
  | some f =>
    have hkey : f.key = key := by simpa using List.find?_some hfind
    obtain ⟨i, hi⟩ := List.getElem?_of_mem (List.mem_of_find?_eq_some hfind)
    obtain ⟨v, b, hv, hb, hat⟩ := h.encoded.value hi
    refine Or.inl ⟨i, f, v, b, hi, hkey, ?_, hv, hb, hat⟩
    dsimp only
    rw [hv]

/-- The object that a field holds can be walked as well. -/
theorem Walks.object (h : Walks d dict fields after off n stack values) (hnd : dict.Nodup) {i : ℕ} {f : Field}
    {fs : List Field} {b : Bytes} (hf : fields[i]? = some f)
    (hv : resolveMacro fields f.value = .ok (.object fs)) (hb : encodeValue stack (.object fs) = .ok b)
    (hi : values[i]? = some b) : ∃ stack' values', Walks d dict fs (objectAhead fields after (fields.drop (i + 1)))
      (off + valueStart n values i) fs.length stack' values' ∧
        getLE d (off + valueStart n values i) 4 = .ok MAGIC_OBJ := by
  have hwalk := h.inner i f fs hf hv
  have hkeys : (fs.map Field.key).Nodup := by
    obtain ⟨hkeys, -, -⟩ := hwalk
    rw [hkeys]
    exact hnd.sublist (List.take_sublist _ _)
  cases stack with
  | zero => cases hb
  | succ stack =>
    obtain ⟨⟨sigils, bytes⟩, hobj, rfl⟩ := map_eq_ok.mp hb
    obtain ⟨values', henc, rfl, hsub⟩ := encodeObject_eq_ok hkeys hobj
    have hat := h.value i _ hi
    have hlen : (objectOf _ _ values').length = _ := objectOf_length (fieldSlots_lt hsub)
    have hsucc := valueStart_succ (n := n) hi
    dsimp only at hat hsucc
    rw [hlen] at hsucc
    rw [List.length_map] at hat hsucc
    have hlt := (List.getElem?_eq_some_iff.mp hf).1
    refine ⟨stack, values', hwalk.walks hnd h.small henc hat fun hmagic => ?_, magic_objectOf hat h.small⟩
    refine h.ahead_of_magic (fields.length - (i + 1)) (i + 1) (by omega) ?_
    rw [hsucc, ← Nat.add_assoc]
    exact hmagic

/-- What a walk over a source's path ends in. -/
def Leads (d : Bytes) (x : Opt ℕ) : Option Value → Prop
  | some v => ∃ p stack b, x = .ok p ∧ At d p b ∧ encodeValue stack v = .ok b ∧
      ∀ s, v = .str s → (utf8 s).length < 2 ^ 32
  | none => x = none'

theorem getLE_cases {d : Bytes} {p w : ℕ} (h : p + w < 2 ^ 64) : getLE d p w = none' ∨ ∃ n, getLE d p w = .ok n := by
  rw [getLE, usizeAdd_of h, ok_bind, getRange]
  split
  · exact Or.inr ⟨_, rfl⟩
  · exact Or.inl rfl

/-- The walk over a path leads where the source says. -/
theorem Walks.walk {r : Reader} (hkeys : r.keys = dict) (hdata : r.data = d) (hnd : dict.Nodup) :
    ∀ (parts : List String) {fields : List Field} {after : Bool} {off n stack : ℕ} {values : List Bytes},
      Walks d dict fields after off n stack values → Leads d (r.walkPath parts off) (valueAt fields parts)
  | [], _, _, _, _, _, _, _ => rfl
  | [part], fields, after, off, n, stack, values, h => by
    rw [valueAt, Reader.walkPath, hdata]
    rcases h.lookup part with ⟨i, f, v, b, hf, rfl, hlook, hv, hb, hi⟩ | ⟨hlook, hnot⟩
    · rw [hlook, slot_of_mem hkeys hnd (h.sub f (List.mem_of_getElem? hf)), ok_bind, h.found i f hf]
      exact ⟨_, stack, b, rfl, h.value i b hi, hb, fun s hs => h.plain.short f (List.mem_of_getElem? hf) s (hs ▸ hv)⟩
    · rw [hlook]
      show (r.slot part >>= _) = none'
      by_cases hpart : part ∈ dict
      · rw [slot_of_mem hkeys hnd hpart, ok_bind, h.missing part hpart hnot]
      · rw [Reader.slot, if_neg (hkeys ▸ hpart), err_bind]
  | part :: next :: parts, fields, after, off, n, stack, values, h => by
    rw [valueAt, Reader.walkPath, hdata]
    rcases h.lookup part with ⟨i, f, v, b, hf, rfl, hlook, hv, hb, hi⟩ | ⟨hlook, hnot⟩
    · rw [hlook, slot_of_mem hkeys hnd (h.sub f (List.mem_of_getElem? hf)), ok_bind, h.found i f hf, ok_bind]
      by_cases hobj : ∃ fs, v = .object fs
      · obtain ⟨fs, rfl⟩ := hobj
        obtain ⟨stack', values', hwalks, hmagic⟩ := h.object hnd hf hv hb hi
        rw [hmagic, ok_bind, ensure_of rfl, ok_bind]
        exact hwalks.walk hkeys hdata hnd (next :: parts)
      · -- what is not an object does not look like one
        have hahead := h.plain.ahead i f v hf hv fun fs hfs => hobj ⟨fs, hfs⟩
        have hle := (h.value i b hi).le
        have hsmall := h.small
        have hlt := (List.getElem?_eq_some_iff.mp hf).1
        have hnone : Leads d none' (match some v with
            | some (.object inner) => valueAt inner (next :: parts)
            | _ => none) := by
          split
          · rename_i fs heq
            exact absurd ⟨fs, Option.some.inj heq⟩ hobj
          · rfl
        rcases getLE_cases (d := d) (show off + valueStart n values i + 4 < 2 ^ 64 by omega) with hget | ⟨m, hget⟩
        · rw [hget, err_bind]
          exact hnone
        · have hm : m ≠ MAGIC_OBJ := by
            rintro rfl
            have hlooks := h.ahead_of_magic (fields.length - i) i (by omega) hget
            rw [hahead] at hlooks
            cases hlooks
          rw [hget, ok_bind, ensure_not hm, err_bind]
          exact hnone
    · rw [hlook]
      show (r.slot part >>= _) = none'
      by_cases hpart : part ∈ dict
      · rw [slot_of_mem hkeys hnd hpart, ok_bind, h.missing part hpart hnot, err_bind]
      · rw [Reader.slot, if_neg (hkeys ▸ hpart), err_bind]

end Walk

/-! ## Reading along paths -/

theorem readsPath_of_leads {r : Reader} {start : ℕ} {path : String} {target : Option Value}
    (hd : r.data.length < 2 ^ 63) (h : Leads r.data (r.walkPath (splitDots path) start) target) :
    (∀ v c, target = some v → v.cell = some c → r.ReadsPath start path c) ∧
      (target = none → r.ReadsPath start path .absent) := by
  constructor
  · rintro v c rfl hc
    obtain ⟨p, stack, b, hwalk, hat, hb, hshort⟩ := h
    have hcell := cellAt_encoded hat hb hc hshort hd
    cases c with
    | i64 n | time n =>
      show r.getI64Path start path = .ok n
      rw [Reader.getI64Path, hwalk, ok_bind]
      exact hcell
    | f64 x =>
      show r.getF64Path start path = .ok x
      rw [Reader.getF64Path, hwalk, ok_bind]
      exact hcell
    | bool x =>
      show r.getBoolPath start path = .ok x
      rw [Reader.getBoolPath, hwalk, ok_bind]
      exact hcell
    | str s =>
      show r.getStrPath start path = .ok s
      rw [Reader.getStrPath, hwalk, ok_bind]
      exact hcell
    | null | binary b => trivial
    | absent => exact hcell.elim
  · rintro rfl
    have hnone : r.walkPath (splitDots path) start = none' := h
    refine ⟨?_, ?_, ?_, ?_⟩
    · rw [Reader.getI64Path, hnone, err_bind]
    · rw [Reader.getF64Path, hnone, err_bind]
    · rw [Reader.getBoolPath, hnone, err_bind]
    · rw [Reader.getStrPath, hnone, err_bind]

/-- The paths into a walkable source are read back. -/
theorem paths_read (stack : ℕ) (fields : List Field) (file : Slice) (hkeys : (fields.map Field.key).Nodup)
    (hnul : ∀ k ∈ fieldKeys fields, NulFree k) (hlen : (fieldKeys fields).dedup.length < 65536)
    (hfile : compile stack fields = .ok file) (hwalk : WalkableRoot fields) : PathsRead fields file := by
  obtain ⟨r, start, values, hnew, h⟩ := exists_root hkeys hnul hlen hfile
  have hwalks : Walks file.bytes (collectFields fields []) fields false start
      (collectFields fields []).length stack values := by
    refine ⟨file.small, h.sub, h.encoded, fun i f hf => ?_, fun k _ hnot => h.resolve_absent hnot,
      fun i b hb => at_value (fieldSlots_lt h.sub) h.at_root hb, fun hmagic => ?_, hwalk.plain, hwalk.inner⟩
    · have hmem := List.mem_of_getElem? hf
      have hplace := valueStart_keyRank (n := (collectFields fields []).length) h.encoded hf (hwalk.ranked i f hf)
      have hrank := keyRank_lt hmem
      have hfits := hwalk.plain.fits stack values h.encoded (keyRank fields f)
        (by rw [← List.Forall₂.length_eq h.encoded]; exact hrank)
      have hres := h.resolve hmem hfits
      rw [hplace] at hres
      exact hres
    · -- behind the root there is the number of records
      rw [getLE_leBytes h.tail (by decide) file.small] at hmagic
      exact absurd (Outcome.ok.inj hmagic) (by decide)
  have hdata := h.single.data
  refine ⟨r, start, hnew, h.single.record, fun path => readsPath_of_leads (hdata ▸ file.small) ?_⟩
  rw [hdata]
  exact hwalks.walk h.single.keys hdata (collectFields_nodup fields) (splitDots path)

/-- `a { a: =5 } n: ^`. -/
def nestedSource : List Field := [.mk "a" (.object [.mk "a" (.int 5)]), .mk "n" .null]

theorem nestedSource_walkable : WalkableRoot nestedSource := by
  have hin : Encoded (encodeValue 1) [.mk "a" (.int 5)] [i64Bytes 5] := .cons ⟨_, rfl, rfl⟩ .nil
  have hout : Encoded (encodeValue 2) nestedSource [objectOf 1 [0] [i64Bytes 5], []] :=
    .cons ⟨_, rfl, rfl⟩ (.cons ⟨_, rfl, rfl⟩ .nil)
  refine ⟨?_, ⟨fits_of_encoded hout (by decide +kernel), ?_, ?_⟩, ?_⟩
  · intro i f hf j g hmin hmax hg
    have hall : ∀ i < 2, keyRank nestedSource (nestedSource.getD i (.mk "" .null)) = i := by decide +kernel
    have hlt := (List.getElem?_eq_some_iff.mp hf).1
    have hrank := hall i hlt
    rw [List.getD_eq_getElem?_getD, hf, Option.getD_some] at hrank
    omega
  · rintro (_ | _ | i) f v hf hv hobj
    · cases hf
      cases hv
      exact absurd rfl (hobj _)
    · cases hf
      rfl
    · cases hf
  · intro f hf s hs
    rcases List.mem_pair.mp hf with rfl | rfl <;> cases hs
  · rintro (_ | _ | i) f fs hf hv
    · cases hf
      cases hv
      refine ⟨by decide, ⟨fits_of_encoded hin (by decide +kernel), ?_, ?_⟩, ?_⟩
      · rintro (_ | i) f v hf hv _
        · cases hf
          rfl
        · cases hf
      · intro f hf s hs
        obtain rfl := List.mem_singleton.mp hf
        cases hs
      · rintro (_ | i) f fs hf hv
        · cases hf
          cases hv
        · cases hf
    · cases hf
      cases hv
    · cases hf

/-- An object whose key is the first one of the file, and a null at the end. -/
theorem paths_read_nested : ∃ file, compile 3 nestedSource = .ok file ∧ PathsRead nestedSource file := by
  obtain ⟨file, hfile⟩ := isOk_iff.mp (show (compile 3 nestedSource).isOk = true by decide +kernel)
  exact ⟨file, hfile, paths_read 3 nestedSource file (by decide) (by decide +kernel) (by decide +kernel) hfile
    nestedSource_walkable⟩

/-- `x { b: =1 }`: the key inside has slot 1 in the file and slot 0 in the object. -/
theorem paths_read_not_inner_slot : ∃ fields file, (fields.map Field.key).Nodup ∧
    (∀ k ∈ fieldKeys fields, NulFree k) ∧ compile 3 fields = .ok file ∧ ¬ PathsRead fields file := by
  have hread : (compile 3 [.mk "x" (.object [.mk "b" (.int 1)])] >>= fun file => Reader.new file >>= fun r =>
      okOr (r.record 0) .overflow >>= fun start => .ok (r.getI64Path start "x.b")) = .ok none' := by
    decide +kernel
  obtain ⟨file, hfile, hread⟩ := bind_eq_ok.mp hread
  refine ⟨_, file, by decide, by decide +kernel, hfile, ?_⟩
  rintro ⟨r, start, hr, hstart, hpaths⟩
  have hb : r.getI64Path start "x.b" = .ok 1 := (hpaths "x.b").1 (.int 1) (.i64 1) rfl rfl
  rw [hr, ok_bind, hstart, okOr_ok, ok_bind, hb] at hread
  cases hread

end Compiler

end Nyxis
