import Nyxis.Compiled
import Nyxis.DecodedCells

/-!
# ListValues — decoding the lists of the compiler

`encodeList` puts the encoded elements one behind the other, each as long as it is.  `decodeList` steps through them
by eight bytes, and reads only two types.

* `decodeList_eq_ok`: what is decoded, element by element.
* `list_round_trip_iff`: the lists that are decoded as they were.
-/

namespace Nyxis

open Lib Lib.Outcome
open Compiler (encodeList encodeElem encodeValue)

/-- A decoded value is the one of the source. -/
inductive SameValue : Value → DecodedValue → Prop
  | int (n : Int64) : SameValue (.int n) (.int n)
  | float (x : F64) : SameValue (.float x) (.float x)
  | bool (b : Bool) : SameValue (.bool b) (.bool b)
  | str (s : String) : SameValue (.str s) (.str s)
  | time (ns : Int64) : SameValue (.time ns) (.time ns)
  | binary (raw : Bytes) : SameValue (.binary raw) (.binary raw)
  | null : SameValue .null .null
  | list {elems : List Value} {items : List DecodedValue} (h : List.Forall₂ SameValue elems items) :
    SameValue (.list elems) (.list items)

theorem not_sameValue_raw {v : Value} {b : Bytes} : ¬ SameValue v (.raw b) := by
  intro h
  cases h

theorem sigil_eq_int {v : Value} (h : v.sigil = SIGIL_INT) : ∃ n, v = .int n := by
  cases v with
  | int n => exact ⟨n, rfl⟩
  | _ => exact absurd h (by simp only [Value.sigil]; decide)

theorem sigil_eq_float {v : Value} (h : v.sigil = SIGIL_FLOAT) : ∃ x, v = .float x := by
  cases v with
  | float x => exact ⟨x, rfl⟩
  | _ => exact absurd h (by simp only [Value.sigil]; decide)

/-- A list of elements with this sigil: 16 bytes in front of them. -/
def sigilListBytes (sigil : UInt8) (len count : ℕ) (body : Bytes) : Bytes :=
  leBytes 4 MAGIC_LIST ++ leBytes 4 len ++ [sigil] ++ leBytes 4 count ++ zeros 3 ++ body

/-- Elements of a list have the sigil of the first one. -/
theorem encodeElem_eq_ok {encode : Value → Res Bytes} {sigil : UInt8} {v : Value} {b : Bytes} :
    encodeElem encode sigil v = .ok b ↔ v.sigil = sigil ∧ encode v = .ok b := by
  rw [encodeElem, bind_eq_ok]
  constructor
  · rintro ⟨_, hsigil, h⟩
    exact ⟨ensure_eq_ok.mp hsigil, h⟩
  · rintro ⟨hsigil, h⟩
    exact ⟨(), ensure_eq_ok.mpr hsigil, h⟩

/-- What is written for a list. -/
theorem encodeList_eq_ok {encode : Value → Res Bytes} {elems : List Value} {b : Bytes} (h : encodeList encode elems = .ok b) :
    ∃ sigil len bufs, b = sigilListBytes sigil len elems.length bufs.flatten ∧
      List.Forall₂ (fun v buf => v.sigil = sigil ∧ encode v = .ok buf) elems bufs := by
  cases elems with
  | nil =>
    cases h
    exact ⟨0, 16, [], rfl, .nil⟩
  | cons v elems =>
    obtain ⟨bufs, hbufs, h⟩ := bind_eq_ok.mp h
    cases h
    have hall := mapM_eq_ok.mp hbufs
    refine ⟨v.sigil, 16 + bufs.flatten.length, bufs, ?_, hall.imp fun _ _ => encodeElem_eq_ok.mp⟩
    rw [hall.length_eq]
    rfl

section List

variable {d body : Bytes} {p len count : ℕ} {sigil : UInt8}

/-- What is decoded, element by element. -/
theorem decodeList_eq_ok {v : DecodedValue} (h : At d p (sigilListBytes sigil len count body)) (hsmall : d.length < 2 ^ 63) :
    decodeList d p = .ok v ↔ ∃ items, v = .list items ∧ count % 2 ^ 32 ≤ (d.length - (p + 16)) / 8 ∧
      List.Forall₂ (fun i item => decodeListItem d sigil (p + 16 + i * 8) = .ok item) (List.range (count % 2 ^ 32)) items := by
  rw [sigilListBytes, at_append, at_append, at_append, at_append, at_append] at h
  simp only [List.length_append, leBytes_length, List.length_singleton, zeros_length] at h
  obtain ⟨⟨⟨⟨⟨hmagic, -⟩, hsigil⟩, hcount⟩, hzeros⟩, -⟩ := h
  have hle := hzeros.le
  have hread : (readLE d (p + 9) 4 : Res ℕ) = .ok (count % 2 ^ 32) := by
    rw [readLE_at hcount (leBytes_length _ _) hsmall, leNat_leBytes_mod]
    rfl
  rw [zeros_length] at hle
  rw [decodeList, usizeAdd_of (by omega), ok_bind, ensure_of (by omega), ok_bind, readLE_leBytes hmagic (by decide) hsmall, ok_bind,
    ensure_of rfl, ok_bind, usizeAdd_of (by omega), ok_bind, index_at hsigil, ok_bind, usizeAdd_of (by omega), ok_bind, hread, ok_bind,
    bind_eq_ok]
  generalize count % 2 ^ 32 = n
  -- the positions of the elements are in the file, whatever they are
  have hitem : n ≤ (d.length - (p + 16)) / 8 → ∀ i ∈ List.range n, (do
      let rel ← usizeMul i 8
      let item ← usizeAdd (p + 16) rel
      decodeListItem d sigil item) = decodeListItem d sigil (p + 16 + i * 8) := by
    intro hn i hi
    have hlt := List.mem_range.mp hi
    rw [usizeMul_of (by omega), ok_bind, usizeAdd_of (by omega), ok_bind]
  constructor
  · rintro ⟨_, hensure, h⟩
    have hn := Nat.not_lt.mp (ensure_eq_ok.mp hensure)
    obtain ⟨items, hitems, h⟩ := bind_eq_ok.mp h
    cases h
    refine ⟨items, rfl, hn, ?_⟩
    rw [mapM_congr (hitem hn)] at hitems
    exact mapM_eq_ok.mp hitems
  · rintro ⟨items, rfl, hn, hitems⟩
    refine ⟨(), ensure_eq_ok.mpr (Nat.not_lt.mpr hn), bind_eq_ok.mpr ⟨items, ?_, rfl⟩⟩
    rw [mapM_congr (hitem hn)]
    exact mapM_eq_ok.mpr hitems

theorem decodeListItem_int {n : Int64} (h : At d p (i64Bytes n)) (hsmall : d.length < 2 ^ 63) :
    decodeListItem d SIGIL_INT p = .ok (.int n) := by
  have hle := h.le
  rw [i64Bytes_length] at hle
  rw [decodeListItem, usizeAdd_of (by omega), ok_bind, ensure_of (by omega), ok_bind, if_pos rfl,
    readLE_at h (i64Bytes_length n) hsmall, leNat_i64Bytes, ok_bind, i64Of_toNat]

theorem decodeListItem_float {x : F64} (h : At d p (f64Bytes x)) (hsmall : d.length < 2 ^ 63) :
    decodeListItem d SIGIL_FLOAT p = .ok (.float x) := by
  have hle := h.le
  rw [f64Bytes_length] at hle
  rw [decodeListItem, usizeAdd_of (by omega), ok_bind, ensure_of (by omega), ok_bind, if_neg (by decide), if_pos rfl,
    readLE_at h (f64Bytes_length x) hsmall, leNat_f64Bytes, ok_bind, f64Of_toNat]

/-- Elements of any other type are left as they are. -/
theorem decodeListItem_other {v : DecodedValue} (hint : sigil ≠ SIGIL_INT) (hfloat : sigil ≠ SIGIL_FLOAT)
    (h : decodeListItem d sigil p = .ok v) : ∃ b, v = .raw b := by
  rw [decodeListItem] at h
  obtain ⟨_, -, h⟩ := bind_eq_ok.mp h
  obtain ⟨_, -, h⟩ := bind_eq_ok.mp h
  rw [if_neg hint, if_neg hfloat] at h
  obtain ⟨b, -, h⟩ := bind_eq_ok.mp h
  cases h
  exact ⟨b, rfl⟩

/-- Elements of eight bytes that are decoded wherever they are, are decoded in a list. -/
theorem decodeList_of_items {bufs : List Bytes} {items : List DecodedValue}
    (h : At d p (sigilListBytes sigil len bufs.length bufs.flatten)) (hsmall : d.length < 2 ^ 63) (hcount : bufs.length < 2 ^ 32)
    (hbufs : ∀ buf ∈ bufs, buf.length = 8)
    (hitems : List.Forall₂ (fun buf item => ∀ q, At d q buf → decodeListItem d sigil q = .ok item) bufs items) :
    decodeList d p = .ok (.list items) := by
  have hbody : At d (p + 16) bufs.flatten := by
    rw [sigilListBytes, at_append] at h
    simpa [leBytes_length] using h.2
  have hlen : bufs.flatten.length = bufs.length * 8 := by
    rw [← List.flatMap_id]
    exact length_flatMap_const hbufs
  have hle := hbody.le
  refine (decodeList_eq_ok h hsmall).mpr ⟨items, rfl, ?_, ?_⟩
  · rw [Nat.mod_eq_of_lt hcount]
    omega
  · rw [Nat.mod_eq_of_lt hcount, List.forall₂_iff_get]
    refine ⟨by rw [List.length_range, hitems.length_eq], fun i hi hi' => ?_⟩
    rw [List.length_range] at hi
    rw [List.get_eq_getElem, List.getElem_range]
    refine (List.forall₂_iff_get.mp hitems).2 i hi hi' _ ?_
    rw [← List.flatMap_id] at hbody
    exact hbody.trans (at_flatMap_const (f := id) hbufs (List.getElem?_eq_getElem hi))

end List

/-- Where every element has a decoded one that its bytes are decoded to, so has the list. -/
theorem exists_items {α β γ : Type} {R : α → β → Prop} {S : α → γ → Prop} {T : β → γ → Prop} {l : List α} {bs : List β}
    (h : List.Forall₂ R l bs) (hR : ∀ a b, a ∈ l → R a b → ∃ c, S a c ∧ T b c) : ∃ cs, List.Forall₂ S l cs ∧ List.Forall₂ T bs cs := by
  induction h with
  | nil => exact ⟨[], .nil, .nil⟩
  | @cons a b l bs hab _ ih =>
    obtain ⟨c, hS, hT⟩ := hR a b List.mem_cons_self hab
    obtain ⟨cs, hSs, hTs⟩ := ih fun a b ha => hR a b (List.mem_cons_of_mem _ ha)
    exact ⟨c :: cs, .cons hS hSs, .cons hT hTs⟩

/-- Lists of integers, lists of floats and empty ones are decoded as they were, if their count fits; no others are. -/
theorem list_round_trip_iff (stack : ℕ) (elems : List Value) (b : Bytes) (henc : encodeList (encodeValue stack) elems = .ok b)
    (d : Slice) (p : ℕ) (hat : At d.bytes p b) :
    (∃ items, decodeList d.bytes p = .ok (.list items) ∧ items.length = elems.length ∧ List.Forall₂ SameValue elems items) ↔
      ((∀ v ∈ elems, ∃ n, v = .int n) ∨ ∀ v ∈ elems, ∃ x, v = .float x) ∧ elems.length < 2 ^ 32 := by
  obtain ⟨sigil, len, bufs, rfl, hbufs⟩ := encodeList_eq_ok henc
  constructor
  · rintro ⟨items, hdecode, hlen, hsame⟩
    obtain ⟨_, hv, -, hitems⟩ := (decodeList_eq_ok hat d.small).mp hdecode
    cases hv
    have hcount := hitems.length_eq
    rw [List.length_range] at hcount
    refine ⟨?_, by omega⟩
    -- an element that is neither is left as it is, so that it is not the one of the source
    have hsigil : elems = [] ∨ sigil = SIGIL_INT ∨ sigil = SIGIL_FLOAT := by
      cases hsame with
      | nil => exact .inl rfl
      | @cons v item elems items hv _ =>
        refine .inr (Classical.byContradiction fun hno => ?_)
        rw [not_or] at hno
        obtain ⟨-, hitem⟩ := List.forall₂_iff_get.mp hitems
        have hpos : 0 < (List.range ((v :: elems).length % 2 ^ 32)).length := by
          rw [List.length_range, hcount]
          exact Nat.succ_pos _
        obtain ⟨raw, hraw⟩ := decodeListItem_other hno.1 hno.2 (hitem 0 hpos (Nat.succ_pos _))
        obtain rfl : item = .raw raw := hraw
        exact not_sameValue_raw hv
    have hall : ∀ v ∈ elems, v.sigil = sigil := fun v hv => by
      obtain ⟨i, hi, rfl⟩ := List.getElem_of_mem hv
      exact ((List.forall₂_iff_get.mp hbufs).2 i hi (hbufs.length_eq ▸ hi)).1
    rcases hsigil with rfl | rfl | rfl
    · exact .inl fun v hv => absurd hv List.not_mem_nil
    · exact .inl fun v hv => sigil_eq_int (hall v hv)
    · exact .inr fun v hv => sigil_eq_float (hall v hv)
  · rintro ⟨htype, hlen⟩
    obtain ⟨items, hsame, hitems⟩ : ∃ items, List.Forall₂ SameValue elems items ∧ List.Forall₂ (fun buf item =>
        buf.length = 8 ∧ ∀ q, At d.bytes q buf → decodeListItem d.bytes sigil q = .ok item) bufs items := by
      refine exists_items hbufs fun v buf hv hbuf => ?_
      obtain ⟨rfl, hbuf⟩ := hbuf
      cases stack with
      | zero => cases hbuf
      | succ stack =>
        rcases htype with hint | hfloat
        · obtain ⟨n, rfl⟩ := hint v hv
          cases hbuf
          exact ⟨.int n, .int n, i64Bytes_length n, fun q hq => decodeListItem_int hq d.small⟩
        · obtain ⟨x, rfl⟩ := hfloat v hv
          cases hbuf
          exact ⟨.float x, .float x, f64Bytes_length x, fun q hq => decodeListItem_float hq d.small⟩
    rw [hbufs.length_eq] at hat hlen
    refine ⟨items, decodeList_of_items hat d.small hlen (fun buf hbuf => ?_) (hitems.imp fun _ _ h => h.2), hsame.length_eq.symm, hsame⟩
    obtain ⟨i, hi, rfl⟩ := List.getElem_of_mem hbuf
    exact ((List.forall₂_iff_get.mp hitems).2 i hi (hitems.length_eq ▸ hi)).1

/-- A list of two integers. -/
theorem list_round_trip_ints : ∃ b : Slice, encodeList (encodeValue 1) [.int 7, .int (-2)] = .ok b.bytes ∧
    ∃ items, decodeList b.bytes 0 = .ok (.list items) ∧ items.length = 2 ∧ List.Forall₂ SameValue [.int 7, .int (-2)] items := by
  refine ⟨⟨sigilListBytes SIGIL_INT 32 2 (i64Bytes 7 ++ i64Bytes (-2)), by decide⟩, rfl, ?_⟩
  refine (list_round_trip_iff 1 [.int 7, .int (-2)] _ rfl _ 0 (at_self _)).mpr ⟨.inl fun v hv => ?_, by decide⟩
  simp only [List.mem_cons, List.not_mem_nil, or_false] at hv
  rcases hv with rfl | rfl
  · exact ⟨7, rfl⟩
  · exact ⟨-2, rfl⟩

/-- A list of truth values is decoded to bytes. -/
theorem list_round_trip_not : ¬ ∀ (stack : ℕ) (elems : List Value) (b : Bytes), encodeList (encodeValue stack) elems = .ok b →
    ∀ (d : Slice) (p : ℕ), At d.bytes p b →
      ∃ items, decodeList d.bytes p = .ok (.list items) ∧ items.length = elems.length ∧ List.Forall₂ SameValue elems items := by
  intro h
  obtain ⟨items, hitems, -, hsame⟩ := h 1 [.bool true] (sigilListBytes SIGIL_BOOL 24 1 (1 :: zeros 7)) rfl
    ⟨sigilListBytes SIGIL_BOOL 24 1 (1 :: zeros 7), by decide⟩ 0 (at_self _)
  have hdecode : decodeList (sigilListBytes SIGIL_BOOL 24 1 (1 :: zeros 7)) 0 = .ok (.list [.raw (1 :: zeros 7)]) := rfl
  cases hdecode.symm.trans hitems
  cases hsame with
  | cons hv _ => exact not_sameValue_raw hv

end Nyxis
