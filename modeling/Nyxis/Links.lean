import Nyxis.DecoderTotal
import Nyxis.ListValues
import Nyxis.RowFile
import Nyxis.WrittenSchema

/-!
# Links — following the links of a compiled file

A link is written as four bytes, the distance from its own first byte.  The decoder reads eight bytes as an absolute
offset, and what it finds there it takes for a link again.

* `decodeValueAt_link`: every link is an error.
* `links_never_resolve`: so are those of a compiled file, and what they lead to is not found.
-/

namespace Nyxis

open Lib Lib.Outcome
open Compiler (compile encodeValue collectFields collectFields_nodup fieldKeys)

/-! ## Targets -/

/-- A value is encoded at `p`. -/
def Holds (d : Bytes) (p : ℕ) (v : Value) : Prop := ∃ stack b, encodeValue stack v = .ok b ∧ At d p b

/-- The value that `n` links lead to. -/
inductive Reaches (d : Bytes) : ℕ → ℕ → Value → Prop
  | value {p : ℕ} {v : Value} (h : Holds d p v) (hlink : ∀ off, v ≠ .link off) : Reaches d 0 p v
  | link {n p q : ℕ} {off : Int32} {v : Value} (h : Holds d p (.link off)) (hq : (q : ℤ) = p + off.toInt) (hrest : Reaches d n q v) :
    Reaches d (n + 1) p v

/-! ## Following links -/

/-- Every link is an error, and none is followed without end. -/
theorem decodeValueAt_link {d : Bytes} (hd : d.length < 2 ^ 63) (p : ℕ) : ∃ e, decodeValueAt d p SIGIL_LINK = .err e := by
  have hsafe := safe_decodeValueAt hd p SIGIL_LINK
  cases h : decodeValueAt d p SIGIL_LINK with
  | ok v => exact absurd h decodeValueAt_link_not_ok
  | err e => exact ⟨e, rfl⟩
  | panic =>
    rw [h] at hsafe
    exact hsafe.elim

/-- An object with a link in one of its slots is not decoded. -/
theorem decodeObject_link {d : Bytes} {off pos s : ℕ} {keys : List String} {sigils : List UInt8} {bits : List Bool}
    {fields : List (String × DecodedValue)} (hoff : off + 8 < 2 ^ 64)
    (hmask : readMask d 74 (off + 8) [] = .ok (bits, pos)) (hs : s ∈ presentSlots bits)
    (hlink : sigils.getD s 0 = SIGIL_LINK) : decodeObject d off keys sigils ≠ .ok fields := by
  intro h
  rw [decodeObject, usizeAdd_of hoff, ok_bind] at h
  obtain ⟨_, -, h⟩ := bind_eq_ok.mp h
  obtain ⟨_, -, h⟩ := bind_eq_ok.mp h
  obtain ⟨_, -, h⟩ := bind_eq_ok.mp h
  rw [hmask, okOr_ok, ok_bind] at h
  dsimp only at h
  obtain ⟨_, -, h⟩ := bind_eq_ok.mp h
  obtain ⟨offsets, hoffsets, h⟩ := bind_eq_ok.mp h
  have hlen := (mapM_eq_ok.mp hoffsets).length_eq
  rw [List.length_range] at hlen
  obtain ⟨i, hi, rfl⟩ := List.getElem_of_mem hs
  have hzip : ((presentSlots bits)[i], offsets[i]) ∈ (presentSlots bits).zip offsets :=
    List.mem_iff_getElem.mpr ⟨i, by rw [List.length_zip]; omega, List.getElem_zip⟩
  obtain ⟨field, hfield⟩ := exists_mapM_eq_ok.mp ⟨_, h⟩ _ hzip
  rw [decodeField] at hfield
  obtain ⟨v, hv, -⟩ := bind_eq_ok.mp hfield
  rw [hlink] at hv
  exact decodeValueAt_link_not_ok hv

/-! ## Compiled files -/

/-- The sigil of a slot that is written once is that of its value. -/
theorem slotSigils_of_mem {n s : ℕ} {v : Value} {resolved : List (ℕ × Value)} (hnd : (resolved.map Prod.fst).Nodup)
    (hmem : (s, v) ∈ resolved) (hs : s < n) : (Compiler.slotSigils n resolved).getD s 0 = v.sigil := by
  have hzero : (List.replicate n (0 : UInt8)).getD s 0 = 0 := by simp [hs]
  have hlen : s < (List.replicate n (0 : UInt8)).length := by simpa using hs
  rw [Compiler.slotSigils]
  generalize List.replicate n (0 : UInt8) = sigils at hzero hlen
  -- before the slot is written its sigil is 0, and after it no other write touches it
  have hkept : ∀ (l : List (ℕ × Value)) (sigils : List UInt8), s ∉ l.map Prod.fst →
      (l.foldl (fun sigils e => noteSigil sigils e.1 e.2.sigil) sigils).getD s 0 = sigils.getD s 0 := by
    intro l
    induction l with
    | nil => exact fun _ _ => rfl
    | cons e l ih =>
      intro sigils hnot
      rw [List.map_cons, List.mem_cons, not_or] at hnot
      rw [List.foldl_cons, ih _ hnot.2, noteSigil_getD_ne _ (Ne.symm hnot.1)]
  induction resolved generalizing sigils with
  | nil => exact absurd hmem List.not_mem_nil
  | cons e l ih =>
    rw [List.map_cons, List.nodup_cons] at hnd
    rw [List.foldl_cons]
    rcases List.mem_cons.mp hmem with rfl | hmem
    · rw [hkept l _ hnd.1, noteSigil, if_pos (.inl hzero), List.getD_eq_getElem?_getD, List.getElem?_set_self hlen, Option.getD_some]
    · have hne : e.1 ≠ s := fun heq => hnd.1 (heq ▸ List.mem_map_of_mem hmem)
      refine ih hnd.2 hmem _ ?_ ?_
      · rw [noteSigil_getD_ne _ hne, hzero]
      · rwa [noteSigil_length]

/-- The slot of a field with a link has the sigil of links, and its bit. -/
theorem encodeRoot_link {stack : ℕ} {fields : List Field} {sigils : List UInt8} {root : Bytes} {f : Field} {off : Int32}
    (hroot : Compiler.encodeRoot stack fields = .ok (sigils, root)) (hkeys : (fields.map Field.key).Nodup) (hf : f ∈ fields)
    (hlink : resolveMacro fields f.value = .ok (.link off)) :
    ∃ s slots values, s ∈ slots ∧ (∀ t ∈ slots, t < (collectFields fields []).length) ∧ sigils.getD s 0 = SIGIL_LINK ∧
      root = Compiler.objectOf (collectFields fields []).length slots values := by
  have hnd := collectFields_nodup fields
  rw [Compiler.encodeRoot, Compiler.encodeObject] at hroot
  obtain ⟨resolved, hresolved, h⟩ := bind_eq_ok.mp hroot
  obtain ⟨values, hvalues, h⟩ := bind_eq_ok.mp h
  cases h
  have hall := mapM_eq_ok.mp hresolved
  have hslot : ∀ {f e}, Compiler.resolveField (collectFields fields []) fields f = .ok e →
      f.key ∈ collectFields fields [] ∧ e.1 = (collectFields fields []).idxOf f.key := fun h => Compiler.resolveField_slot hnd h
  obtain ⟨⟨s, v⟩, hmem, hres⟩ : ∃ e ∈ resolved, Compiler.resolveField (collectFields fields []) fields f = .ok e := by
    obtain ⟨i, hi, rfl⟩ := List.getElem_of_mem hf
    exact ⟨_, List.getElem_mem (hall.length_eq ▸ hi), (List.forall₂_iff_get.mp hall).2 i hi (hall.length_eq ▸ hi)⟩
  have hlt : ∀ e ∈ resolved, e.1 < (collectFields fields []).length := by
    intro e he
    obtain ⟨j, hj, rfl⟩ := List.getElem_of_mem he
    exact Compiler.resolveField_lt ((List.forall₂_iff_get.mp hall).2 j (hall.length_eq ▸ hj) hj)
  have hslots : resolved.map Prod.fst = Compiler.fieldSlots (collectFields fields []) fields := by
    rw [Compiler.fieldSlots, ← List.forall₂_eq_eq_eq, List.forall₂_map_left_iff, List.forall₂_map_right_iff]
    exact hall.flip.imp fun _ _ h => (hslot h).2
  have hslotsNd : (resolved.map Prod.fst).Nodup := by
    rw [hslots]
    refine Compiler.fieldSlots_nodup (fun f hf => ?_) hkeys
    obtain ⟨j, hj, rfl⟩ := List.getElem_of_mem hf
    exact (hslot ((List.forall₂_iff_get.mp hall).2 j hj (hall.length_eq ▸ hj))).1
  obtain rfl : v = .link off := by
    obtain ⟨slot, -, h⟩ := bind_eq_ok.mp hres
    obtain ⟨v, hv, h⟩ := bind_eq_ok.mp h
    rw [hlink] at hv
    cases hv
    exact (congrArg Prod.snd (Outcome.ok.inj h)).symm
  refine ⟨s, resolved.map Prod.fst, values, List.mem_map_of_mem hmem, fun t ht => ?_, ?_, rfl⟩
  · obtain ⟨e, he, rfl⟩ := List.mem_map.mp ht
    exact hlt e he
  · rw [slotSigils_of_mem hslotsNd hmem (hlt _ hmem)]
    rfl

/-- Of a compiled file with a link among the fields of its record no field is decoded. -/
theorem rootFields_link {stack : ℕ} {fields : List Field} {file : Slice} {f : Field} {off : Int32} {decoded : DecodedFile}
    (hfile : compile stack fields = .ok file) (hkeys : (fields.map Field.key).Nodup)
    (hnul : ∀ k ∈ collectFields fields [], NulFree k) (hlen : (collectFields fields []).length < 65536)
    (hf : f ∈ fields) (hlink : resolveMacro fields f.value = .ok (.link off)) (hdec : decode file = .ok decoded) :
    decoded.rootFields = [] := by
  have hd := file.small
  obtain ⟨⟨sigils, root⟩, hroot, hseal⟩ := bind_eq_ok.mp hfile
  dsimp only at hseal
  rw [Compiler.encodeTailIndex] at hseal
  have hframed := sealRow_eq_ok (by decide) hseal
  have hlim := hframed.withinLimits rfl rfl hlen hnul (isOk_iff.mpr ⟨_, hdec⟩)
  obtain ⟨s, slots, values, hs, hslots, hsigil, rfl⟩ := encodeRoot_link hroot hkeys hf hlink
  obtain ⟨-, t, keys, sigils', start, -, -, -, hschema, hrootFields, -⟩ := decode_opens hdec
  -- the schema is read as it was written, so that the record is where it was put
  have hv13 : ¬ Flagged file.bytes FLAG_V13_COMPACT_MASK := by
    rw [Flagged, hframed.words.1]
    decide
  have hemb : Flagged file.bytes FLAG_SCHEMA_EMBEDDED := by
    rw [Flagged, hframed.words.1]
    decide
  obtain ⟨hcount, hnames, hend⟩ := schemaNames_buildSchema hd hframed.schema_at hv13 hlen hnul
  have hparse := parseSchema_buildSchema hd hframed.schema_at (by decide) hlen hnul
  obtain ⟨h34, -, -, -, -, -, hread, -⟩ := (parseSchema_eq_ok hd).mp hparse
  have hstart : start = 32 + (buildSchema (collectFields fields []) sigils).length := by
    rw [show start = dataSectorStart file.bytes from decodeSchema_start hd hschema, dataSectorStart, if_pos ⟨hemb, h34⟩, hend]
  obtain rfl : sigils' = schemaSigils (collectFields fields []).length sigils := by
    rw [decodeSchema, if_pos ⟨hemb, h34⟩] at hschema
    obtain ⟨⟨keys', sigils'', stop⟩, hheader, h⟩ := bind_eq_ok.mp hschema
    obtain ⟨_, -, h⟩ := bind_eq_ok.mp h
    obtain ⟨_, -, h⟩ := bind_eq_ok.mp h
    obtain ⟨_, -, h⟩ := bind_eq_ok.mp h
    cases h
    rw [decodeHeader, if_neg hv13] at hheader
    obtain ⟨-, -, -, -, -, -, -, -, hsigils, -⟩ := (decodeBasicSchema_eq_ok hd h34).mp hheader
    rw [hsigils, hread]
  have hat := hframed.body_at
  rw [at_append] at hat
  obtain ⟨-, hmask, -⟩ := Compiler.at_objectOf hslots hat.1
  have hle := hmask.le
  have hmany := hlim.many
  have hfuel : bitmaskLen (collectFields fields []).length ≤ 74 := by
    rw [bitmaskLen]
    omega
  have hread := readMask_object hmask hfuel
  have hslot : s < (collectFields fields []).length := hslots s hs
  have hbits : s < 7 * bitmaskLen (collectFields fields []).length := by
    rw [bitmaskLen]
    omega
  have hpresent : s ∈ presentSlots ((List.range (7 * bitmaskLen (collectFields fields []).length)).map fun i => slots.any (· == i)) := by
    rw [presentSlots, List.mem_filter, List.mem_range, List.length_map, List.length_range, List.getD_eq_getElem?_getD, List.getElem?_map,
      List.getElem?_range hbits, Option.map_some, Option.getD_some, List.any_eq_true]
    exact ⟨hbits, s, hs, beq_self_eq_true s⟩
  have hlinkSigil : (schemaSigils (collectFields fields []).length sigils).getD s 0 = SIGIL_LINK := by
    rw [schemaSigils, List.getD_eq_getElem?_getD, List.getElem?_map, List.getElem?_range hslot, Option.map_some, Option.getD_some, hsigil]
    rfl
  rw [hstart, decodeRoot] at hrootFields
  split at hrootFields
  · cases hobject : decodeObject file.bytes (32 + (buildSchema (collectFields fields []) sigils).length) keys
        (schemaSigils (collectFields fields []).length sigils) with
    | ok fs => exact absurd hobject (decodeObject_link (by omega) hread hpresent hlinkSigil)
    | err e =>
      rw [hobject] at hrootFields
      exact (Outcome.ok.inj hrootFields).symm
    | panic =>
      rw [hobject] at hrootFields
      cases hrootFields
  · exact (Outcome.ok.inj hrootFields).symm

/-- No link of a compiled file is resolved to its target: it is an error, whatever it leads to, and a link among the fields of the record
takes the other fields with it. -/
theorem links_never_resolve (stack : ℕ) (fields : List Field) (file : Slice) (hfile : compile stack fields = .ok file) :
    (∀ p, ∃ e, decodeValueAt file.bytes p SIGIL_LINK = .err e) ∧
    (∀ n p v, Reaches file.bytes (n + 1) p v → ¬ ∃ dv, decodeValueAt file.bytes p SIGIL_LINK = .ok dv ∧ SameValue v dv) ∧
    (∀ f ∈ fields, ∀ off, resolveMacro fields f.value = .ok (.link off) → (fields.map Field.key).Nodup →
      (∀ k ∈ collectFields fields [], NulFree k) → (collectFields fields []).length < 65536 →
      ∀ decoded, decode file = .ok decoded → decoded.rootFields = []) := by
  refine ⟨decodeValueAt_link file.small, fun n p v _ => ?_, fun f hf off hlink hkeys hnul hlen decoded hdec => ?_⟩
  · rintro ⟨dv, hdv, -⟩
    exact decodeValueAt_link_not_ok hdv
  · exact rootFields_link hfile hkeys hnul hlen hf hlink hdec

/-- `a: =7 b: &-8`: the link leads to the seven. -/
def linkedSource : List Field := [.mk "a" (.int 7), .mk "b" (.link (-8))]

theorem linkedSource_compiles : ∃ file, compile 3 linkedSource = .ok file ∧ Reaches file.bytes 1 64 (.int 7) := by
  obtain ⟨file, hfile⟩ := isOk_iff.mp (show (compile 3 linkedSource).isOk = true by decide +kernel)
  have hlink : (compile 3 linkedSource >>= fun file => (.ok ((file.bytes.drop 64).take 8) : Res Bytes)) =
      .ok (leBytes 4 (-8 : Int32).toUInt32.toNat ++ zeros 4) := by
    decide +kernel
  have hint : (compile 3 linkedSource >>= fun file => (.ok ((file.bytes.drop 56).take 8) : Res Bytes)) = .ok (i64Bytes 7) := by
    decide +kernel
  have hlen : (compile 3 linkedSource >>= fun file => (.ok file.bytes.length : Res ℕ)) = .ok 98 := by decide +kernel
  rw [hfile, ok_bind] at hlink hint hlen
  have hlen' : file.bytes.length = 98 := Outcome.ok.inj hlen
  refine ⟨file, hfile, @Reaches.link _ 0 64 56 (-8) _ ⟨1, _, rfl, ?_⟩ (by decide) (.value ⟨1, _, rfl, ?_⟩ (fun off h => by cases h))⟩
  · rw [← Outcome.ok.inj hlink]
    exact at_of_take_drop (by omega) rfl
  · rw [← Outcome.ok.inj hint]
    exact at_of_take_drop (by omega) rfl

/-- The link of `linkedSource` is not resolved, and the seven is lost with it. -/
theorem links_never_resolve_one : ∃ file decoded, compile 3 linkedSource = .ok file ∧ Reaches file.bytes 1 64 (.int 7) ∧
    (∃ e, decodeValueAt file.bytes 64 SIGIL_LINK = .err e) ∧ decode file = .ok decoded ∧ decoded.rootFields = [] := by
  obtain ⟨file, hfile, hreach⟩ := linkedSource_compiles
  obtain ⟨decoded, hdec⟩ := isOk_iff.mp (show (compile 3 linkedSource >>= decode).isOk = true by decide +kernel)
  rw [hfile, ok_bind] at hdec
  obtain ⟨herr, -, hroot⟩ := links_never_resolve 3 linkedSource file hfile
  exact ⟨file, decoded, hfile, hreach, herr 64, hdec, hroot (.mk "b" (.link (-8))) (List.mem_cons_of_mem _ List.mem_cons_self) (-8) rfl
    (by decide) (by decide +kernel) (by decide) decoded hdec⟩

/-- A link to an integer of the same file is an error. -/
theorem links_not_resolved : ¬ ∀ (stack : ℕ) (fields : List Field) (file : Slice), compile stack fields = .ok file →
    ∀ n p v, n < 16 → Reaches file.bytes (n + 1) p v → ∃ dv, decodeValueAt file.bytes p SIGIL_LINK = .ok dv ∧ SameValue v dv := by
  intro h
  obtain ⟨file, hfile, hreach⟩ := linkedSource_compiles
  obtain ⟨dv, hdv, -⟩ := h 3 linkedSource file hfile 0 64 (.int 7) (by decide) hreach
  exact decodeValueAt_link_not_ok hdv

end Nyxis
