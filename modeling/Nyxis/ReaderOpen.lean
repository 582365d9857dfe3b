import Nyxis.Layout

/-!
# ReaderOpen — opening the files the writers build

`Reader.new_file` reduces `Reader.new` on a preamble, a schema header and a tail to what it does with
the tail; `Reader.new_basic` does so for a v1.2 schema header.
-/

namespace Nyxis

open Lib Lib.Outcome

@[simp] theorem preamble_length (version flags : ℕ) (hash : UInt64) (tailPtr : ℕ) :
    (preamble version flags hash tailPtr).length = 32 := by
  simp [preamble]

/-- The words of a preamble. -/
theorem at_preamble {d : Bytes} {version flags t : ℕ} {hash : UInt64}
    (h : At d 0 (preamble version flags hash t)) :
    At d 0 (leBytes 4 MAGIC_FILE) ∧ At d 6 (leBytes 2 flags) ∧ At d 16 (leBytes 8 t) := by
  rw [preamble, at_append, at_append, at_append, at_append, at_append] at h
  obtain ⟨⟨⟨⟨⟨hmagic, -⟩, hfl⟩, -⟩, htail⟩, -⟩ := h
  simp only [List.length_append, leBytes_length] at hfl htail
  exact ⟨hmagic, hfl, htail⟩

/-- The last bytes of a file. -/
theorem at_end (pre seg : Bytes) : At (pre ++ seg) ((pre ++ seg).length - seg.length) seg := by
  have h := (at_self seg).append_left pre
  rw [Nat.add_zero] at h
  rw [List.length_append, Nat.add_sub_cancel]
  exact h

/-- Opening a file whose preamble and footer are in place. -/
theorem Reader.new_file {file : Slice} {version flags t : ℕ} {hash : UInt64} {body : Bytes}
    (hfile : file.bytes = preamble version flags hash t ++ body ++ leBytes 4 MAGIC_FOOTER)
    (hflags : flags < 65536) (ht : t < 2 ^ 64) (hvalid : validatePreambleFlags flags = .ok ())
    (hembed : hasFlag flags FLAG_SCHEMA_EMBEDDED = true) :
    Reader.new file =
      if hasFlag flags FLAG_V13_COMPACT_MASK then (do
        let (ext, _) ← parseExtendedSchema file.bytes 32 flags
        let plan := RowCellPlan.new ext flags
        Reader.openTail file.bytes flags t ext.keys ext.sigils (some ext) (some plan))
      else (do
        let (keys, sigils, _) ← parseSchema file.bytes 32
        Reader.openTail file.bytes flags t keys sigils none none) := by
  have hsmall := file.small
  have hpre : At file.bytes 0 (preamble version flags hash t) := by
    rw [hfile]
    exact ((at_self _).append_right _).append_right _
  have hlen : 36 ≤ file.bytes.length := by
    rw [hfile]
    simp
    omega
  have hfoot : At file.bytes (file.bytes.length - 4) (leBytes 4 MAGIC_FOOTER) := by
    have h := at_end (preamble version flags hash t ++ body) (leBytes 4 MAGIC_FOOTER)
    rwa [leBytes_length, ← hfile] at h
  obtain ⟨hmagic, hfl, htail⟩ := at_preamble hpre
  rw [Reader.new]
  dsimp only
  rw [ensure_of (by omega), ok_bind, readLE_leBytes hmagic (by decide) hsmall, ok_bind,
    ensure_of rfl, ok_bind, readLE_leBytes hfoot (by decide) hsmall, ok_bind, ensure_of rfl, ok_bind,
    readLE_leBytes hfl (by omega) hsmall, ok_bind, hvalid, ok_bind,
    readLE_leBytes htail (by omega) hsmall, ok_bind, if_pos hembed]

/-- Opening a file with a v1.2 schema header. -/
theorem Reader.new_basic {file : Slice} {version flags t : ℕ} {hash : UInt64} {body : Bytes}
    {keys : List String} {sigils : List UInt8}
    (hfile : file.bytes =
      preamble version flags hash t ++ (buildSchema keys sigils ++ body) ++ leBytes 4 MAGIC_FOOTER)
    (hflags : flags < 65536) (ht : t < 2 ^ 64) (hvalid : validatePreambleFlags flags = .ok ())
    (hembed : hasFlag flags FLAG_SCHEMA_EMBEDDED = true)
    (hbasic : hasFlag flags FLAG_V13_COMPACT_MASK = false)
    (hlen : keys.length < 65536) (hnul : ∀ k ∈ keys, NulFree k) :
    Reader.new file =
      Reader.openTail file.bytes flags t keys (schemaSigils keys.length sigils) none none := by
  have hschema : At file.bytes 32 (buildSchema keys sigils) := by
    rw [hfile]
    have h := ((at_self (buildSchema keys sigils)).append_right body).append_left
      (preamble version flags hash t)
    rw [preamble_length, Nat.add_zero] at h
    exact h.append_right _
  rw [Reader.new_file hfile hflags ht hvalid hembed, if_neg (by simp [hbasic]),
    parseSchema_buildSchema file.small hschema (by decide) hlen hnul]
  rfl

/-- Sigils that are all set are written as they are. -/
theorem schemaSigils_eq {n : ℕ} {sigils : List UInt8} (hn : sigils.length = n)
    (h0 : (0 : UInt8) ∉ sigils) : schemaSigils n sigils = sigils := by
  subst hn
  refine List.ext_getElem (by simp) fun i h1 h2 => ?_
  have hne : sigils[i] ≠ 0 := fun he => h0 (he ▸ List.getElem_mem h2)
  simp [schemaSigils, schemaSigil, List.getElem?_eq_getElem h2, hne]

end Nyxis
